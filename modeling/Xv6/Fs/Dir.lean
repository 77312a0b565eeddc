import Xv6.Fs.Inode

/-! `kernel/fs.c`, directories and path names.

    A directory's content is an array of 16-byte entries, an inode number and up to `DIRSIZ` bytes of
    name; an entry with inode number 0 is free. A path or a name is the list of bytes before its
    terminating NUL. -/

namespace Xv6.Fs
open Bytes Prog

variable (sb : Super)

/-- A path, or one element of it. -/
abbrev Name := List UInt8

/-- The buffer that holds a NUL-terminated string. -/
def cstr (s : Name) : Buf := fun k => s.getD k 0

/-- `strncmp` from character `i` on. -/
def strncmp (p q : Buf) : Nat → Nat → Int
  | _, 0 => 0
  | i, n + 1 =>
    if p i ≠ 0 ∧ p i = q i then strncmp p q (i + 1) n else ((p i).toNat : Int) - (q i).toNat

/-- `strncpy` into a buffer of `n` bytes. -/
def strncpy (t : Name) (n : Nat) : List UInt8 := getBytes (cstr t) 0 n

def namecmp (s t : Buf) : Int := strncmp s t 0 DIRSIZ

structure Dirent where
  inum : UInt16
  name : List UInt8       -- all DIRSIZ bytes

/-- `sizeof(struct dirent)`. -/
def direntSize : Nat := 16

/-- The directory entry at offset `o` of a block. -/
def dirent (b : Block) (o : Nat) : Dirent := ⟨getU16 b o, getBytes b (o + 2) DIRSIZ⟩

/-- The bytes of an entry naming `inum`. -/
def direntBytes (name : Name) (inum : Nat) : List UInt8 :=
  byteOf inum 0 :: byteOf inum 1 :: strncpy name DIRSIZ

def dot : Name := [46]
def dotdot : Name := [46, 46]

/-! ### Directories -/

/-- Read the entry at offset `off`. -/
def readDirent (dp : Slot) (off : Nat) (e : Panic) : FsM Dirent := do
  let (r, bs) ← readi sb dp .kernel off direntSize
  if r ≠ direntSize then panic e else pure (dirent (cstr bs) 0)

/-- `dirlookup` from offset `off` on. -/
def dirlookupFrom (dp : Slot) (name : Name) : Nat → Nat → FsM (Option (Slot × Nat))
  | _, 0 => pure none
  | off, n + 1 => do
    let d ← getNode dp
    if off < d.size.toNat then do
      let de ← readDirent sb dp off .dirlookupRead
      if de.inum ≠ 0 ∧ namecmp (cstr name) (cstr de.name) = 0 then do
        -- entry matches path element
        let (dev, _) ← getIno dp
        let ip ← iget dev de.inum.toNat
        pure (some (ip, off))
      else dirlookupFrom dp name (off + direntSize) n
    else pure none

/-- Look for a directory entry in a directory: its inode and its byte offset. -/
def dirlookup (dp : Slot) (name : Name) : FsM (Option (Slot × Nat)) := do
  let d ← getNode dp
  if d.type ≠ T_DIR then panic .dirlookupNotDir
  else dirlookupFrom sb dp name 0 (d.size.toNat + 1)

/-- The offset of the first empty dirent at or after `off`, or the end of the directory. -/
def emptyDirentFrom (dp : Slot) : Nat → Nat → FsM Nat
  | off, 0 => pure off
  | off, n + 1 => do
    let d ← getNode dp
    if off < d.size.toNat then do
      let de ← readDirent sb dp off .dirlinkRead
      if de.inum = 0 then pure off else emptyDirentFrom dp (off + direntSize) n
    else pure off

/-- Write a new directory entry `(name, inum)` into the directory `dp`; whether that succeeded. -/
def dirlink (dp : Slot) (name : Name) (inum : Nat) : FsM Bool := do
  -- Check that name is not present.
  match ← dirlookup sb dp name with
  | some (ip, _) => do
    iput sb ip
    pure false
  | none => do
    let d ← getNode dp
    let off ← emptyDirentFrom sb dp 0 (d.size.toNat + 1)
    let r ← writei sb dp (.kernel (direntBytes name inum)) off direntSize
    pure (r = direntSize)

/-! ### Paths -/

/-- Copy the next path element from path into name: the element, cut to `DIRSIZ` bytes, and the path
    after it with no leading slashes. -/
def skipelem (path : Name) : Option (Name × Name) :=
  let p := path.dropWhile (· == 47)
  if p = [] then none
  else some ((p.takeWhile (· != 47)).take DIRSIZ, (p.dropWhile (· != 47)).dropWhile (· == 47))

/-- The loop of `namex`. With `nameiparent` it stops one level early and also gives the final path
    element. -/
def namexFrom (nameiparent : Bool) : Slot → Name → Nat → FsM (Option (Slot × Name))
  | _, _, 0 => pure none
  | ip, path, n + 1 =>
    match skipelem path with
    | none =>
      if nameiparent then do
        iput sb ip
        pure none
      else pure (some (ip, []))
    | some (name, path) => do
      ilock sb ip
      let d ← getNode ip
      if d.type ≠ T_DIR then do
        iunlockput sb ip
        pure none
      else if nameiparent ∧ path = [] then do
        -- Stop one level early.
        iunlock ip
        pure (some (ip, name))
      else do
        match ← dirlookup sb ip name with
        | none => do
          iunlockput sb ip
          pure none
        | some (next, _) => do
          iunlockput sb ip
          namexFrom nameiparent next path n

/-- Where a path starts: the root directory or the current one. -/
def startDir (path : Name) : FsM Slot :=
  if path.head? = some 47 then iget ROOTDEV ROOTINO
  else do
    let ip ← getCwd
    idup ip
    pure ip

/-- Look up and return the inode for a path name, or its parent and the final path element. -/
def namex (path : Name) (nameiparent : Bool) : FsM (Option (Slot × Name)) := do
  let ip ← startDir path
  namexFrom sb nameiparent ip path (path.length + 1)

def namei (path : Name) : FsM (Option Slot) := do
  let r ← namex sb path false
  pure (r.map Prod.fst)

def nameiparent (path : Name) : FsM (Option (Slot × Name)) := namex sb path true

end Xv6.Fs
