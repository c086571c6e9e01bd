import Xv6Arm.Fs.Inode

/-!
# Directories and paths

The directory and path layers of `fs.c`. A string is the list of its bytes before
the NUL; a name has at most `DIRSIZ` bytes and no NUL if it has all of them.
-/
namespace Xv6Arm
open Lib

/-- `strncmp` on strings that end with their list. -/
def strncmp : List UInt8 → List UInt8 → ℕ → ℤ
  | _, _, 0 => 0
  | p, q, n + 1 =>
    let c := p.headD 0
    let d := q.headD 0
    if c ≠ 0 ∧ c = d then strncmp p.tail q.tail n else (c.toNat : ℤ) - d.toNat

/-- `strncpy`: `n` bytes, padded with NULs. -/
def strncpy (t : List UInt8) : ℕ → List UInt8
  | 0 => []
  | n + 1 => if t.headD 0 = 0 then List.replicate (n + 1) 0 else t.headD 0 :: strncpy t.tail n

def namecmp (s t : List UInt8) : ℤ := strncmp s t DIRSIZ

/-- The size of `struct dirent`. -/
abbrev DESIZE : ℕ := 16

/-- `de.inum` of the bytes of a `struct dirent`. -/
def direntInum (de : List UInt8) : ℕ := (de.getD 0 0).toNat + 256 * (de.getD 1 0).toNat

def direntName (de : List UInt8) : List UInt8 := de.drop 2

def mkDirent (name : List UInt8) (inum : ℕ) : List UInt8 :=
  UInt8.ofNat inum :: UInt8.ofNat (inum / 256) :: strncpy name DIRSIZ

/-- Read the entry at `off`, or panic with `msg`. -/
def readDirent (sb : Superblock) (dp off : ℕ) (msg : String) : KM (List UInt8) := do
  match ← readi sb dp .kernel off DESIZE with
  | some de => if de.length = DESIZE then pure de else .panic msg
  | none => .panic msg

/-- The loop of `dirlookup` from `off` on, with `n` entries to go. -/
def dirlookupFrom (sb : Superblock) (dp : ℕ) (name : List UInt8) : ℕ → ℕ → KM (Option (ℕ × ℕ))
  | _, 0 => pure none
  | off, n + 1 => do
    let de ← readDirent sb dp off "dirlookup read"
    if direntInum de = 0 then dirlookupFrom sb dp name (off + DESIZE) n
    else if namecmp name (direntName de) = 0 then do
      let ip ← iget (direntInum de)
      pure (some (ip, off))
    else dirlookupFrom sb dp name (off + DESIZE) n

/-- `dirlookup`: the inode, and the offset of its entry. -/
def dirlookup (sb : Superblock) (dp : ℕ) (name : List UInt8) : KM (Option (ℕ × ℕ)) := do
  let x ← inode (.get dp)
  if x.d.type ≠ T_DIR then .panic "dirlookup not DIR"
  else dirlookupFrom sb dp name 0 ((x.d.size + (DESIZE - 1)) / DESIZE)

/-- The loop of `dirlink` that looks for an empty entry. -/
def emptyDirentFrom (sb : Superblock) (dp : ℕ) : ℕ → ℕ → KM ℕ
  | off, 0 => pure off
  | off, n + 1 => do
    let de ← readDirent sb dp off "dirlink read"
    if direntInum de = 0 then pure off else emptyDirentFrom sb dp (off + DESIZE) n

/-- `dirlink`: `false` for -1. -/
def dirlink (sb : Superblock) (dp : ℕ) (name : List UInt8) (inum : ℕ) : KM Bool := do
  match ← dirlookup sb dp name with
  | some (ip, _) => do
    iput sb ip
    pure false
  | none => do
    let x ← inode (.get dp)
    let off ← emptyDirentFrom sb dp 0 ((x.d.size + (DESIZE - 1)) / DESIZE)
    let r ← writei sb dp (.kernel (mkDirent name inum)) off DESIZE
    if r ≠ DESIZE then .panic "dirlink" else pure true

/-! ## Paths -/

abbrev SLASH : UInt8 := 47

/-- `skipelem`: the rest of the path, and the element. -/
def skipelem (path : List UInt8) : Option (List UInt8 × List UInt8) :=
  let s := path.dropWhile (· == SLASH)
  if s = [] then none
  else some ((s.dropWhile (· != SLASH)).dropWhile (· == SLASH), (s.takeWhile (· != SLASH)).take DIRSIZ)

/-- The loop of `namex`; an element takes up at least one byte, so the length of the path bounds
the number of turns. -/
def namexFrom (sb : Superblock) (nameiparent : Bool) :
    ℕ → ℕ → List UInt8 → List UInt8 → KM (Option (ℕ × List UInt8))
  | 0, _, _, _ => pure none
  | fuel + 1, ip, path, name =>
    match skipelem path with
    | none =>
      if nameiparent then do
        iput sb ip
        pure none
      else pure (some (ip, name))
    | some (path, name) => do
      ilock sb ip
      let x ← inode (.get ip)
      if x.d.type ≠ T_DIR then do
        iunlockput sb ip
        pure none
      else if nameiparent ∧ path = [] then do
        iunlock ip
        pure (some (ip, name))
      else
        match ← dirlookup sb ip name with
        | none => do
          iunlockput sb ip
          pure none
        | some (next, _) => do
          iunlockput sb ip
          namexFrom sb nameiparent fuel next path name

/-- `namex` for process `p`: the inode, and the last element in `name`. -/
def namex (sb : Superblock) (p : ℕ) (path : List UInt8) (nameiparent : Bool) :
    KM (Option (ℕ × List UInt8)) := do
  let ip ← if path.head? = some SLASH then iget ROOTINO
    else do
      let x ← proc (.get p)
      -- every live process has a working directory; `idup` of a null pointer would fault
      match x.cwd with
      | none => .panic "fault"
      | some cwd => do
        idup cwd
        pure cwd
  namexFrom sb nameiparent (path.length + 1) ip path []

def namei (sb : Superblock) (p : ℕ) (path : List UInt8) : KM (Option ℕ) := do
  match ← namex sb p path false with
  | none => pure none
  | some (ip, _) => pure (some ip)

def nameiparent (sb : Superblock) (p : ℕ) (path : List UInt8) : KM (Option (ℕ × List UInt8)) :=
  namex sb p path true

end Xv6Arm
