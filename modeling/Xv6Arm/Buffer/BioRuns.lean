import Xv6Arm.Buffer.BioSteps

/-!
# Every run of the buffer cache

The invariant holds after any calls of any processes, and it gives the structure of
the cache: the list, the keys, the reference counts and the choice of `bget`.
-/
namespace Xv6Arm.Bio
open Lib

variable {vs : ℕ → View} {c d : Bcache} {l : List ℕ}

/-! ## The loops of `bget` -/

theorem Listed.length (h : Listed c l) : l.length = NBUF := by
  rw [h.perm.length_eq, List.length_range]

theorem Listed.mem_iff (h : Listed c l) {b : ℕ} : b ∈ l ↔ b < NBUF := by
  rw [h.perm.mem_iff, List.mem_range]

theorem Listed.search (h : Listed c l) (dev blockno : ℕ) :
    c.search dev blockno = some (l.find? fun b => (c.buf b).dev == dev && (c.buf b).blockno == blockno) :=
  h.circular.seg.walk_next (List.nodup_cons.mp h.circular.nodup).1 _ (by rw [h.length]; exact Nat.lt_succ_self _)

theorem Listed.searchUnused (h : Listed c l) :
    c.searchUnused = some (l.reverse.find? fun b => (c.buf b).refcnt == 0) :=
  h.circular.seg.walk_prev (List.nodup_cons.mp h.circular.nodup).1 _ (by rw [h.length]; exact Nat.lt_succ_self _)

/-- The last unused buffer of the list is the one whose release is the longest ago. -/
theorem Listed.oldest (h : Listed c l) {b : ℕ} (hb : c.searchUnused = some (some b)) :
    b < NBUF ∧ (c.buf b).refcnt = 0 ∧ ∀ a < NBUF, (c.buf a).refcnt = 0 → c.age a ≤ c.age b := by
  rw [h.searchUnused, Option.some.injEq] at hb
  have hmem := List.mem_of_find?_eq_some hb
  have hzero := List.find?_some hb
  rw [List.mem_reverse] at hmem
  refine ⟨h.mem_iff.mp hmem, by simpa using hzero, ?_⟩
  intro a ha ha0
  have hlast : (c.unused l).getLast? = some b := by
    rw [← List.head?_reverse, Bcache.unused, ← List.filter_reverse, List.head?_filter]
    exact hb
  obtain ⟨l', hl'⟩ := List.getLast?_eq_some_iff.mp hlast
  have hsorted := h.recent
  have hin : a ∈ c.unused l := List.mem_filter.mpr ⟨h.mem_iff.mpr ha, by simp [ha0]⟩
  rw [hl'] at hsorted hin
  rcases List.mem_append.mp hin with hin | hin
  · exact (List.pairwise_append.mp hsorted).2.2 a hin b (by simp)
  · rw [List.mem_singleton.mp hin]

/-- What `bget` does under `bcache.lock`: it always gets through its loops. -/
theorem Listed.bget_cases (h : Listed c l) (dev blockno : ℕ) :
    (∃ b < NBUF, (c.buf b).dev = dev ∧ (c.buf b).blockno = blockno ∧ c.bget dev blockno =
      .done b ((c.setBuf b fun x => { x with refcnt := Bcache.inc x.refcnt }).note (.get b))) ∨
    (∀ b < NBUF, ¬ ((c.buf b).dev = dev ∧ (c.buf b).blockno = blockno)) ∧
      ((∃ b, c.searchUnused = some (some b) ∧ c.bget dev blockno = .done b (((c.setBuf b fun x =>
        { x with dev := dev, blockno := blockno, valid := false, refcnt := 1 }).note (.assign b)).note (.get b))) ∨
      (∀ b < NBUF, (c.buf b).refcnt ≠ 0) ∧ c.bget dev blockno = .panic "bget: no buffers") := by
  have hsearch := h.search dev blockno
  cases hfind : l.find? fun b => (c.buf b).dev == dev && (c.buf b).blockno == blockno with
  | some b =>
    rw [hfind] at hsearch
    have hkey := List.find?_some hfind
    simp only [Bool.and_eq_true, beq_iff_eq] at hkey
    exact .inl ⟨b, h.mem_iff.mp (List.mem_of_find?_eq_some hfind), hkey.1, hkey.2, by simp only [Bcache.bget, hsearch]⟩
  | none =>
    rw [hfind] at hsearch
    refine .inr ⟨?_, ?_⟩
    · intro b hb
      simpa using List.find?_eq_none.mp hfind b (h.mem_iff.mpr hb)
    · have hunused := h.searchUnused
      cases hfind' : l.reverse.find? fun b => (c.buf b).refcnt == 0 with
      | some b =>
        rw [hfind'] at hunused
        exact .inl ⟨b, hunused, by simp only [Bcache.bget, hsearch, hunused]⟩
      | none =>
        rw [hfind'] at hunused
        refine .inr ⟨?_, by simp only [Bcache.bget, hsearch, hunused]⟩
        intro b hb
        simpa using List.find?_eq_none.mp hfind' b (List.mem_reverse.mpr (h.mem_iff.mpr hb))

/-! ## Runs -/

theorem bio_conforms : bioThreads.Conforms bioSpec (fun _ => Quiet) Inv := by
  intro t o K vs c r d h hspec hr
  -- Only the view of the process itself changes.
  suffices hv : ∃ v, Inv (Function.update vs t v) d ∧ K r v by
    obtain ⟨v, hinv, hK⟩ := hv
    refine ⟨Function.update vs t v, hinv, ?_, ?_⟩
    · change K r (Function.update vs t v t)
      rwa [Function.update_self]
    · intro u hu
      change Function.update vs t v u = vs u
      exact Function.update_of_ne hu v vs
  change bioSpec t o K (vs t) at hspec
  change bioStep t o c = .done r d at hr
  cases o with
  | bget dev blockno =>
    obtain ⟨ht, hv, hK⟩ := hspec
    obtain ⟨l, hl⟩ := h.listed
    change c.bget dev blockno = .done r d at hr
    rcases hl.bget_cases dev blockno with ⟨b, hb, -, -, hget⟩ | ⟨hmiss, ⟨b, hb, hget⟩ | ⟨-, hget⟩⟩
    · rw [hget] at hr
      cases hr
      exact ⟨_, h.bgetHit ht hv hb, hK _⟩
    · rw [hget] at hr
      cases hr
      obtain ⟨hlt, hzero, -⟩ := hl.oldest hb
      exact ⟨_, h.bgetMiss ht hv hlt hzero fun a ha => hmiss a (h.assigned a ha), hK _⟩
    · rw [hget] at hr
      cases hr
  | brelse b =>
    cases hr
    exact ⟨_, h.brelse hspec.1, hspec.2⟩
  | bpin b =>
    obtain ⟨ht, hb, hv, hK⟩ := hspec
    rw [bioStep] at hr
    split at hr
    · next hmax =>
      cases hr
      exact ⟨_, h.bpin ht hv hb hmax, hK⟩
    · cases hr
  | bunpin b =>
    cases hr
    exact ⟨_, h.bunpin hspec.1, hspec.2⟩
  | acquiresleep b =>
    rw [bioStep] at hr
    split at hr
    · next hl =>
      cases hr
      exact ⟨_, h.acquiresleep hspec.1 hl, hspec.2⟩
    · cases hr
  | releasesleep b =>
    cases hr
    exact ⟨_, h.releasesleep hspec.1, hspec.2⟩
  | holdingsleep b =>
    cases hr
    obtain ⟨hv, hK⟩ := hspec
    have hlock := h.holder t b (.inl hv)
    refine ⟨vs t, by rwa [Function.update_eq_self], ?_⟩
    rwa [decide_eq_true hlock]
  | valid b =>
    cases hr
    exact ⟨vs t, by rwa [Function.update_eq_self], hspec _⟩
  | setValid b =>
    cases hr
    obtain ⟨hv, hK⟩ := hspec
    exact ⟨_, h.setValid hv, hv ▸ hK⟩
  | diskRw b write =>
    cases hr
    exact ⟨vs t, by rwa [Function.update_eq_self], hspec⟩

theorem bio_absorbs : bioThreads.Absorbs bioSpec (fun _ => Quiet) Inv := by
  rintro t vs c d p p' h ⟨ht, rfl, rfl, huse⟩ hquiet
  cases huse with
  | bread dev blockno =>
    exact ⟨.out, h.review ht hquiet (by rintro b ⟨⟩) (by simp [View.refs]) (by rintro b ⟨⟩), bread_meets ht dev blockno⟩
  | bwrite hb hlock =>
    refine ⟨_, h.review ht hquiet ?_ (by simp [View.refs]) (by rintro b ⟨⟩), bwrite_meets _⟩
    rintro b ⟨⟩
    exact ⟨hb, hlock⟩
  | brelse hb hlock =>
    refine ⟨_, h.review ht hquiet ?_ (by simp [View.refs]) (by rintro b ⟨⟩), brelse_meets _⟩
    rintro b ⟨⟩
    exact ⟨hb, hlock⟩
  | bpin hb =>
    exact ⟨.out, h.review ht hquiet (by rintro b ⟨⟩) (by simp [View.refs]) (by rintro b ⟨⟩), bpin_meets ht hb⟩
  | bunpin hb hlock hpin =>
    refine ⟨_, h.review ht hquiet ?_ (by simp [View.refs]) ?_, bunpin_meets _⟩
    · rintro b ⟨⟩
      exact ⟨hb, hlock⟩
    · rintro b ⟨⟩
      exact hpin

/-! ## The start -/

theorem foldl_link (bs : List ℕ) {c : Bcache} {l : List ℕ} (hc : c.links.Circular HEAD l)
    (hbs : bs.Nodup) (hnew : ∀ b ∈ bs, b ∉ HEAD :: l) :
    (bs.foldl Bcache.link c).links.Circular HEAD (bs.reverse ++ l) ∧
      (bs.foldl Bcache.link c).buf = c.buf ∧ (bs.foldl Bcache.link c).hist = c.hist := by
  induction bs generalizing c l with
  | nil => exact ⟨hc, rfl, rfl⟩
  | cons b bs ih =>
    obtain ⟨hb, hbs⟩ := List.nodup_cons.mp hbs
    have hlink : (c.link b).links.Circular HEAD (b :: l) := hc.pushFront (hnew b (by simp))
    have hrest := ih hlink hbs (by
      intro a ha hin
      have hold := hnew a (List.mem_cons_of_mem b ha)
      have hab : a ≠ b := fun h => hb (h ▸ ha)
      simp_all)
    rw [List.foldl_cons, List.reverse_cons, List.append_assoc]
    exact hrest

/-- `binit` links all buffers. -/
theorem listed_binit {c d : Bcache} (hd : c.binit = d) (hzero : c.hist = []) :
    Listed d (List.range NBUF).reverse ∧ d.buf = c.buf ∧ d.hist = [] := by
  have hempty : ((c.links.setPrev HEAD HEAD).setNext HEAD HEAD).Circular HEAD [] := by
    refine ⟨⟨?_, ?_⟩, List.nodup_singleton HEAD⟩ <;> simp
  have hfold := foldl_link (List.range NBUF)
    (c := { c with links := (c.links.setPrev HEAD HEAD).setNext HEAD HEAD }) hempty List.nodup_range (by
      intro b hb hin
      rw [List.mem_singleton] at hin
      exact absurd (List.mem_range.mp hb) (by rw [hin]; exact Nat.lt_irrefl _))
  rw [← Bcache.binit, hd, List.append_nil] at hfold
  obtain ⟨hcirc, hbuf, hhist⟩ := hfold
  have hhist : d.hist = [] := hhist.trans hzero
  refine ⟨⟨hcirc, List.reverse_perm _, ?_⟩, hbuf, hhist⟩
  apply List.pairwise_of_forall
  intro a b
  simp [Bcache.age, hhist]

theorem Fresh.inv {C : Threads.Config bioSig Bcache ℕ} (h : Fresh C) : Inv (fun _ => .out) C.shared := by
  obtain ⟨L, hL⟩ := h.links
  obtain ⟨hlist, hbuf, hhist⟩ := listed_binit hL.symm rfl
  constructor
  · exact ⟨_, hlist⟩
  · simp [hhist]
  · simp [hhist]
  · exact fun _ _ => rfl
  · rintro t b ⟨⟩
  · intro t b hb
    simp at hb
  · rintro t b ⟨⟩
  · simp [Bcache.times, hhist, hbuf, View.refs]
  · simp [Bcache.times, hhist]
  · simp [Bcache.times, hhist, hbuf]

theorem BioReachable.inv {C : Threads.Config bioSig Bcache ℕ} (h : BioReachable C) : ∃ vs, Inv vs C.shared := by
  have hsafe := h.safe bio_conforms bio_absorbs fun C hC =>
    ⟨fun _ => .out, hC.inv, fun t => by rw [hC.idle t]; exact .inl rfl⟩
  obtain ⟨vs, hinv, -⟩ := hsafe
  exact ⟨vs, hinv⟩

/-! ## The structure of the cache -/

/-- What holds of the cache whenever `bcache.lock` is free. -/
structure CacheOk (c : Bcache) : Prop where
  /-- The links form one circular list through `head` with each buffer once, and the unused buffers stand
  in it in the order of their last release. -/
  list : ∃ l, c.links.Circular HEAD l ∧ l.Perm (List.range NBUF) ∧
    (l.filter fun b => (c.buf b).refcnt == 0).Pairwise fun a b => c.age a ≤ c.age b
  distinct : ∀ a b, a ≠ b → .assign a ∈ c.hist → .assign b ∈ c.hist → ¬ SameKey (c.buf a) (c.buf b)
  /-- The reference count is the number of outstanding gets and pins. -/
  refcnt : ∀ b, c.times (.release b) ≤ c.times (.get b) ∧ c.times (.unpin b) ≤ c.times (.pin b) ∧
    (c.buf b).refcnt = (c.times (.get b) - c.times (.release b)) + (c.times (.pin b) - c.times (.unpin b))
  /-- `bget` gets through its loops; a miss takes the unused buffer whose release is the longest ago and gives it
  to the block, with one reference and nothing in it. -/
  recycles : ∀ dev blockno, (∀ b < NBUF, ¬ ((c.buf b).dev = dev ∧ (c.buf b).blockno = blockno)) →
    (∃ b d, c.bget dev blockno = .done b d ∧ (b < NBUF ∧ (c.buf b).refcnt = 0 ∧
      ∀ a < NBUF, (c.buf a).refcnt = 0 → c.age a ≤ c.age b) ∧ d.links = c.links ∧
      d.buf = Function.update c.buf b ⟨false, dev, blockno, (c.buf b).lock, 1⟩) ∨
    (∀ b < NBUF, (c.buf b).refcnt ≠ 0) ∧ c.bget dev blockno = .panic "bget: no buffers"

theorem Inv.cacheOk (h : Inv vs c) : CacheOk c := by
  obtain ⟨l, hl⟩ := h.listed
  refine ⟨⟨l, hl.circular, hl.perm, hl.recent⟩, h.distinct, ?_, ?_⟩
  · intro b
    have hg := h.gets b
    have hp := h.pins b
    have hr := h.refcnt b
    omega
  · intro dev blockno hmiss
    rcases hl.bget_cases dev blockno with ⟨b, hb, hdev, hblock, -⟩ | ⟨-, ⟨b, hb, hget⟩ | hfull⟩
    · exact absurd ⟨hdev, hblock⟩ (hmiss b hb)
    · exact .inl ⟨b, _, hget, hl.oldest hb, rfl, rfl⟩
    · exact .inr hfull

/-- A buffer in use keeps its device and block number. -/
theorem Inv.key_of_used (h : Inv vs c) {t : ℕ} {o : Op} {r : o.Res} (hr : bioStep t o c = .done r d) {b : ℕ}
    (hb : 0 < (c.buf b).refcnt) : SameKey (d.buf b) (c.buf b) := by
  -- Every request but a miss in `bget` leaves the keys alone.
  have hkeep : ∀ (a : ℕ) (f : Buf → Buf), (∀ x, SameKey (f x) x) → SameKey ((c.setBuf a f).buf b) (c.buf b) := by
    intro a f hf
    rw [Bcache.setBuf_buf]
    split
    · next hba => exact hba ▸ hf _
    · exact ⟨rfl, rfl⟩
  cases o with
  | bget dev blockno =>
    obtain ⟨l, hl⟩ := h.listed
    change c.bget dev blockno = .done r d at hr
    rcases hl.bget_cases dev blockno with ⟨a, -, -, -, hget⟩ | ⟨-, ⟨a, ha, hget⟩ | ⟨-, hget⟩⟩
    · rw [hget] at hr
      cases hr
      exact hkeep _ (fun x => { x with refcnt := Bcache.inc x.refcnt }) fun x => ⟨rfl, rfl⟩
    · rw [hget] at hr
      cases hr
      have hne : b ≠ r := by
        rintro rfl
        have hzero := (hl.oldest ha).2.1
        omega
      simp [SameKey, hne]
    · rw [hget] at hr
      cases hr
  | brelse a =>
    cases hr
    have hbuf : (c.brelse a).buf = (c.setBuf a fun x => { x with refcnt := Bcache.dec x.refcnt }).buf := by
      simp only [Bcache.brelse]
      split <;> rfl
    rw [hbuf]
    exact hkeep a _ fun x => ⟨rfl, rfl⟩
  | bpin a =>
    rw [bioStep] at hr
    split at hr
    · cases hr
      exact hkeep a (fun x => { x with refcnt := Bcache.inc x.refcnt }) fun x => ⟨rfl, rfl⟩
    · cases hr
  | bunpin a =>
    cases hr
    exact hkeep a (fun x => { x with refcnt := Bcache.dec x.refcnt }) fun x => ⟨rfl, rfl⟩
  | acquiresleep a =>
    rw [bioStep] at hr
    split at hr
    · cases hr
      exact hkeep a _ fun x => ⟨rfl, rfl⟩
    · cases hr
  | releasesleep a =>
    cases hr
    exact hkeep a _ fun x => ⟨rfl, rfl⟩
  | setValid a =>
    cases hr
    exact hkeep a _ fun x => ⟨rfl, rfl⟩
  | holdingsleep a | valid a | diskRw a w =>
    cases hr
    exact ⟨rfl, rfl⟩

/-- The buffer cache keeps its structure under any calls of any processes, and no step takes a buffer in use
away from its block. -/
theorem bcache_structure (C : Threads.Config bioSig Bcache ℕ) (h : BioReachable C) :
    CacheOk C.shared ∧ ∀ D, bioThreads.Step C D → ∀ b, 0 < (C.shared.buf b).refcnt →
      SameKey (D.shared.buf b) (C.shared.buf b) := by
  obtain ⟨vs, hinv⟩ := h.inv
  refine ⟨hinv.cacheOk, ?_⟩
  intro D hstep b hb
  cases hstep with
  | request ht hr => exact hinv.key_of_used hr hb
  | event hev =>
    obtain ⟨-, -, rfl, -⟩ := hev
    exact ⟨rfl, rfl⟩

def newCache : Threads.Config bioSig Bcache ℕ where
  shared := Bcache.binit ⟨⟨id, id⟩, fun _ => ⟨false, 0, 0, none, 0⟩, []⟩
  thread _ := .ret ()

/-- Process 0 makes a call and comes back from it. -/
def call (C : Threads.Config bioSig Bcache ℕ) (p : BM Unit) : Threads.Config bioSig Bcache ℕ :=
  bioThreads.ahead 0 5 ⟨C.shared, Function.update C.thread 0 p⟩

def readBlock (n : ℕ) : BM Unit := (bread ROOTDEV n).bind fun _ => .ret ()

theorem call_reachable {C : Threads.Config bioSig Bcache ℕ} {p : BM Unit} (h : BioReachable C)
    (hidle : Threads.idle (C.thread 0) = true) (hp : Use 0 C.shared p) : BioReachable (call C p) :=
  (h.step (.event (T := bioThreads) (c := 0) ⟨by decide, Threads.eq_ret_of_idle hidle, rfl, hp⟩)).ahead 0 5

/-- The cache with block `b` of the root device in buffer `b`, for the first `k` buffers, all locked by process 0. -/
def holding (k : ℕ) : Threads.Config bioSig Bcache ℕ where
  shared :=
    { links := newCache.shared.links
      buf := fun b => if b < k then ⟨true, ROOTDEV, b, some 0, 1⟩ else ⟨false, 0, 0, none, 0⟩
      hist := (List.range k).foldl (fun l b => .get b :: .assign b :: l) [] }
  thread _ := .ret ()

theorem holding_step {k : ℕ} (hk : k < NBUF) : call (holding k) (readBlock k) = holding (k + 1) := by
  have hlist := (listed_binit (c := ⟨⟨id, id⟩, fun _ => ⟨false, 0, 0, none, 0⟩, []⟩) rfl rfl).1
  have hmiss : (holding k).shared.search ROOTDEV k = some none := by
    refine (hlist.circular.seg.walk_next (List.nodup_cons.mp hlist.circular.nodup).1 _ (by simp)).trans ?_
    rw [List.find?_eq_none.mpr]
    intro b _
    simp only [holding]
    split_ifs with hb
    · simpa using Nat.ne_of_lt hb
    · simp [ROOTDEV]
  have hunused : (holding k).shared.searchUnused = some (some k) := by
    refine (hlist.circular.seg.walk_prev (List.nodup_cons.mp hlist.circular.nodup).1 _ (by simp)).trans ?_
    rw [List.reverse_reverse, List.find?_range_eq_some.mpr]
    refine ⟨?_, List.mem_range.mpr hk, fun j hj => ?_⟩
    · simp [holding]
    · simp [holding, hj]
  have hget : (holding k).shared.bget ROOTDEV k = .done k ((((holding k).shared.setBuf k fun x =>
      { x with dev := ROOTDEV, blockno := k, valid := false, refcnt := 1 }).note (.assign k)).note (.get k)) := by
    simp only [Bcache.bget, hmiss, hunused]
  have hbuf : (holding k).shared.buf k = ⟨false, 0, 0, none, 0⟩ := if_neg (Nat.lt_irrefl k)
  have hshared : (call (holding k) (readBlock k)).shared =
      ⟨(holding k).shared.links, Function.update (holding k).shared.buf k ⟨true, ROOTDEV, k, some 0, 1⟩,
        .get k :: .assign k :: (holding k).shared.hist⟩ := by
    simp [call, Threads.ahead, bioThreads, readBlock, bread, bget, req, bioStep, hget, Prog.op, Bcache.note,
      Bcache.setBuf, hbuf]
  have hthread : (call (holding k) (readBlock k)).thread = fun _ => .ret () := by
    have hret : ∀ u, (holding k).thread u = .ret () := fun _ => rfl
    funext u
    by_cases hu : u = 0 <;>
      simp [call, Threads.ahead, bioThreads, readBlock, bread, bget, req, bioStep, hget, Prog.op, Bcache.note,
        Bcache.setBuf, hbuf, hu, hret]
  refine congrArg₂ Threads.Config.mk (hshared.trans ?_) hthread
  simp only [holding, List.range_succ, List.foldl_append, List.foldl_cons, List.foldl_nil]
  congr 1
  funext b
  by_cases hb : b = k
  · subst hb
    rw [Function.update_self, if_pos (Nat.lt_succ_self b)]
  · rw [Function.update_of_ne hb]
    exact if_congr (by omega) rfl rfl

theorem holding_reachable {k : ℕ} (hk : k ≤ NBUF) : BioReachable (holding k) := by
  induction k with
  | zero => exact .init ⟨⟨⟨id, id⟩, rfl⟩, fun _ => rfl⟩
  | succ k ih =>
    rw [← holding_step hk]
    exact call_reachable (ih (Nat.le_of_lt hk)) rfl (.bread ROOTDEV k)

/-- All buffers are in use, and process 0 pins buffer 5 and releases it. -/
def pinned : Threads.Config bioSig Bcache ℕ := call (call (holding NBUF) (bpin 5)) (brelse 5)

/-- It has read the block again, taken the pin back and released the buffer. -/
def released : Threads.Config bioSig Bcache ℕ := call (call (call pinned (readBlock 5)) (bunpin 5)) (brelse 5)

/-- It has read another block. -/
def recycled : Threads.Config bioSig Bcache ℕ := call released (readBlock 99)

theorem recycled_reachable : BioReachable recycled := by
  have h1 := call_reachable (holding_reachable (Nat.le_refl NBUF)) rfl (.bpin (b := 5) (by decide))
  have h2 : BioReachable pinned := call_reachable h1 (by decide +kernel) (.brelse (by decide) (by decide +kernel))
  have h3 := call_reachable h2 (by decide +kernel) (.bread ROOTDEV 5)
  have h4 := call_reachable h3 (by decide +kernel) (.bunpin (b := 5) (by decide) (by decide +kernel) (by decide +kernel))
  have h5 : BioReachable released := call_reachable h4 (by decide +kernel) (.brelse (by decide) (by decide +kernel))
  exact call_reachable h5 (by decide +kernel) (.bread ROOTDEV 99)

theorem bcache_structure_recycled :
    ((pinned.shared.buf 5).refcnt, (released.shared.buf 5).refcnt, (recycled.shared.buf 5).blockno) = (1, 0, 99) ∧
      CacheOk recycled.shared :=
  ⟨by decide +kernel, (bcache_structure recycled recycled_reachable).1⟩

end Xv6Arm.Bio
