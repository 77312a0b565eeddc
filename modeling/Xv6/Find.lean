import Xv6.Param
import Xv6.Ulib

/-! `user/find.c`: all the files of a name, below a directory.

    `find` reads the directory `root` entry by entry. It keeps the path of the current entry in a buffer, behind the
    `prefix` that it was given, and hands that path to `stat` and, for a directory, to itself:

        buf    r o o t / n a m e NUL
               prefix  ^ p

    The kernel is asked by path: `open` finds a file and what `fstat` and `read` say about it. -/

namespace Xv6.Find
open Bytes Ulib List Option

/-! ### The code -/

def slash : UInt8 := 47

/-- `"."` -/
def dot : List UInt8 := [46]

/-- `".."` -/
def dotdot : List UInt8 := [46, 46]

/-- The bytes of a text. -/
def text (s : String) : List UInt8 := s.toList.map fun c => UInt8.ofNat c.toNat

/-- `st.type`. -/
inductive Ftype where
  | dir
  | file
  | device
  deriving Repr, DecidableEq

/-- `struct dirent`. -/
structure Dirent where
  inum : UInt16
  name : List UInt8
  length : name.length = DIRSIZ

/-- An open file: what `fstat` says, if it succeeds, and the entries that `read` returns. -/
structure File where
  type : Option Ftype
  entries : List Dirent

/-- The files, by path. The kernel does not take a path of `MAXPATH` bytes or more. -/
structure Files where
  openPath : List UInt8 → Option File
  short : ∀ {path file}, openPath path = some file → path.length < MAXPATH

/-- `stat`: `open`, `fstat`, `close`. -/
def Files.stat (fs : Files) (path : List UInt8) : Option Ftype := (fs.openPath path).bind File.type

/-- What is printed: the file descriptor and the text. -/
abbrev Print := Nat × List UInt8

/-- What was printed, and what is returned. -/
abbrev Result := List Print × Int

/-- Something printed before. -/
def Result.after (r : Result) (out : List Print) : Result := (out ++ r.1, r.2)

/-- `sizeof buf`. -/
def BUFSIZE : Nat := 512

/-- The path with a `/` behind it: how `main` fills `prefix` and `find` fills `new_prefix`. -/
def withSlash (junk : Buf) (path : List UInt8) : Option Buf := do
  let d ← strcpy BUFSIZE junk 0 path
  let len := (← string BUFSIZE d 0).length
  let d ← store BUFSIZE d len slash
  store BUFSIZE d (len + 1) 0

/-- `memmove(p, de.name, DIRSIZ); *(p + DIRSIZ) = '\0';` -/
def setName (buf : Buf) (p : Nat) (de : Dirent) : Option Buf := do
  let buf ← storeAll BUFSIZE buf p de.name
  store BUFSIZE buf (p + DIRSIZ) 0

section Code
variable (fs : Files) (junk : List UInt8 → Buf) (target : List UInt8)

/-- The loop over the entries of a directory; `again` is `find` itself. -/
def entries (again : List UInt8 → List UInt8 → Option Result) (buf : Buf) (p : Nat) : List Dirent → Option Result
  | [] => some ([], 0)
  | de :: des =>
    if de.inum = 0 then entries again buf p des
    else do
      let buf ← setName buf p de
      let path ← string BUFSIZE buf 0
      let name ← string BUFSIZE buf p
      match fs.stat path with
      | none => (entries again buf p des).map (·.after [(1, text "cannot stat " ++ path)])
      | some .device => entries again buf p des
      | some .file =>
        if name = target then (entries again buf p des).map (·.after [(1, path ++ [newline])])
        else entries again buf p des
      | some .dir =>
        if name = dot ∨ name = dotdot then entries again buf p des
        else
          let newPrefix ← withSlash (junk path) path
          let (out, r) ← again path (← string BUFSIZE newPrefix 0)
          if r < 0 then some (out, -1) else (entries again buf p des).map (·.after out)

/-- `find`, with `pfx` for `prefix`; what its buffers hold before is anything. -/
def find : Nat → List UInt8 → List UInt8 → Option Result
  | 0, _, _ => none
  | fuel + 1, root, pfx =>
    match fs.openPath root with
    | none => some ([(1, text "cannot open " ++ root ++ [newline])], 0)
    | some file =>
      match file.type with
      | none => some ([(1, text "cannot stat " ++ root ++ [newline])], 0)
      | some .device | some .file => some ([(2, root ++ text " is not a dir.")], -1)
      | some .dir =>
        if root.length + 1 + DIRSIZ + 1 > BUFSIZE then some ([(1, text "path is too long." ++ [newline])], 0)
        else do
          let buf ← strcpy BUFSIZE (junk root) 0 pfx
          let p := (← string BUFSIZE buf 0).length
          entries fs junk target (find fuel) buf p file.entries

end Code

/-- The end of `main`; a path grows with every call of `find`, and one of `MAXPATH` bytes cannot be opened. -/
def search (fs : Files) (junk : List UInt8 → Buf) (root target : List UInt8) : Option Result :=
  if root.head? = some slash then some ([(2, text "root is not relative.")], -1)
  else do
    let pfx ← withSlash (junk []) root
    find fs junk target (MAXPATH + 1) root (← string BUFSIZE pfx 0)

/-- `main`. -/
def main (fs : Files) (junk : List UInt8 → Buf) : List (List UInt8) → Option Result
  | [_, target] => search fs junk dot target
  | [_, root, target] => search fs junk root target
  | _ => some ([(2, text "invalide number of args")], -1)

/-! ### The buffers -/

/-- The path of an entry. -/
def join (root name : List UInt8) : List UInt8 := root ++ slash :: name

/-- The name of an entry: a name of `DIRSIZ` bytes has no NUL. -/
def Dirent.str (de : Dirent) : List UInt8 := de.name.takeWhile (· ≠ 0)

/-- The buffer holds the directory and a `/`, up to `p`. -/
structure At (root : List UInt8) (buf : Buf) (p : Nat) : Prop where
  nul : 0 ∉ root
  bytes : getBytes buf 0 p = root ++ [slash]
  len : p = root.length + 1
  fits : p + DIRSIZ < BUFSIZE

theorem Dirent.nul (de : Dirent) : 0 ∉ de.str := fun h => by simpa using mem_takeWhile_imp h

theorem Dirent.str_length (de : Dirent) : de.str.length ≤ DIRSIZ :=
  (takeWhile_sublist _).length_le.trans de.length.le

/-- With a NUL behind it, every name ends in one. -/
theorem Dirent.name_eq (de : Dirent) : ∃ bs, de.name ++ [0] = de.str ++ 0 :: bs := by
  unfold Dirent.str
  generalize de.name = name
  induction name with
  | nil => exact ⟨[], rfl⟩
  | cons b name ih =>
    by_cases hb : b = 0
    · exact ⟨name ++ [0], by simp [hb]⟩
    · obtain ⟨bs, h⟩ := ih
      exact ⟨bs, by simp [hb, h]⟩

theorem nul_join {root name : List UInt8} (hr : 0 ∉ root) (hn : 0 ∉ name) : 0 ∉ join root name := by
  have hs : (0 : UInt8) ≠ slash := by decide
  simp [join, hr, hn, hs]

theorem withSlash_eq {junk : Buf} {path : List UInt8} (h0 : 0 ∉ path) (h : path.length + 1 < BUFSIZE) :
    ∃ d, withSlash junk path = some d ∧ string BUFSIZE d 0 = some (path ++ [slash]) := by
  have hcopy : string BUFSIZE (setBytes junk 0 (path ++ [0])) 0 = some path := (isStr_strcpy h0).string (by omega)
  have hd : Function.update (Function.update (setBytes junk 0 (path ++ [0])) path.length slash) (path.length + 1) 0 =
      setBytes junk 0 ((path ++ [slash]) ++ [0]) := by
    rw [append_assoc, setBytes_append, setBytes_append, setBytes_singleton, singleton_append, setBytes_cons,
      setBytes_singleton, zero_add, Function.update_idem]
  have hnul : 0 ∉ path ++ [slash] := nul_join h0 (not_mem_nil)
  refine ⟨_, ?_, (hd ▸ isStr_strcpy hnul).string (by rw [length_append, length_singleton]; omega)⟩
  simp only [withSlash, strcpy_eq (show 0 + path.length < BUFSIZE by omega), bind_eq_bind, bind_some,
    hcopy, store_eq (show path.length < BUFSIZE by omega), store_eq h]

/-- What `setName` leaves in the buffer. -/
theorem setName_eq {root : List UInt8} {buf : Buf} {p : Nat} (h : At root buf p) (de : Dirent) :
    ∃ buf', setName buf p de = some buf' ∧ At root buf' p ∧ string BUFSIZE buf' 0 = some (join root de.str) ∧
      string BUFSIZE buf' p = some de.str := by
  have hlen := de.length
  have hstr := de.str_length
  have hfits := h.fits
  obtain ⟨bs, hname⟩ := de.name_eq
  have hbuf : setName buf p de = some (setBytes buf p (de.str ++ 0 :: bs)) := by
    rw [setName, storeAll_eq (by omega), bind_eq_bind, bind_some, store_eq hfits, ← hname,
      setBytes_append, setBytes_singleton, hlen]
  have hname' : IsStr (setBytes buf p (de.str ++ 0 :: bs)) p de.str := isStr_setBytes de.nul
  have hroot : getBytes (setBytes buf p (de.str ++ 0 :: bs)) 0 p = root ++ [slash] :=
    (getBytes_congr fun j hj => by rw [setBytes, if_neg (by omega)]).trans h.bytes
  have hp : (root ++ [slash]).length = p := by rw [length_append, length_singleton, h.len]
  have hpath : IsStr (setBytes buf p (de.str ++ 0 :: bs)) 0 (join root de.str) := by
    rw [show join root de.str = root ++ [slash] ++ de.str by simp [join], isStr_append, hp, zero_add]
    exact ⟨hroot, nul_join h.nul not_mem_nil, hname'⟩
  refine ⟨_, hbuf, ⟨h.nul, hroot, h.len, hfits⟩, hpath.string ?_, hname'.string (by omega)⟩
  have hl := h.len
  rw [join, length_append, length_cons]
  omega

/-! ### Without the buffers -/

/-- The loop over the entries of a directory, on paths. -/
def visit (fs : Files) (target : List UInt8) (again : List UInt8 → Option Result) (root : List UInt8) :
    List Dirent → Option Result
  | [] => some ([], 0)
  | de :: des =>
    if de.inum = 0 then visit fs target again root des
    else
      match fs.stat (join root de.str) with
      | none => (visit fs target again root des).map (·.after [(1, text "cannot stat " ++ join root de.str)])
      | some .device => visit fs target again root des
      | some .file =>
        if de.str = target then (visit fs target again root des).map (·.after [(1, join root de.str ++ [newline])])
        else visit fs target again root des
      | some .dir =>
        if de.str = dot ∨ de.str = dotdot then visit fs target again root des
        else do
          let (out, r) ← again (join root de.str)
          if r < 0 then some (out, -1) else (visit fs target again root des).map (·.after out)

section Paths
variable {fs : Files} {junk : List UInt8 → Buf} {target root : List UInt8} {fuel : Nat}

/-- What can be looked at has a short path. -/
theorem Files.stat_short {path : List UInt8} {type : Ftype} (h : fs.stat path = some type) : path.length < MAXPATH := by
  obtain ⟨file, hopen, -⟩ := bind_eq_some_iff.mp h
  exact fs.short hopen

theorem entries_eq {again : List UInt8 → List UInt8 → Option Result} {buf : Buf} {p : Nat} (h : At root buf p)
    (des : List Dirent) :
    entries fs junk target again buf p des = visit fs target (fun path => again path (path ++ [slash])) root des := by
  have hmax : MAXPATH + 2 < BUFSIZE := by decide
  induction des generalizing buf with
  | nil => rfl
  | cons de des ih =>
    rw [entries, visit]
    by_cases hi : de.inum = 0
    · rw [if_pos hi, if_pos hi, ih h]
    · obtain ⟨buf', hset, hat, hpath, hname⟩ := setName_eq h de
      simp only [if_neg hi, hset, bind_eq_bind, bind_some, hpath, hname, ih hat]
      cases hstat : fs.stat (join root de.str) with
      | none => rfl
      | some type =>
        cases type with
        | device => rfl
        | file => rfl
        | dir =>
          have hshort := fs.stat_short hstat
          obtain ⟨d, hd, hs⟩ := @withSlash_eq (junk (join root de.str)) _ (nul_join h.nul de.nul) (by omega)
          simp only [hd, hs, bind_some]

theorem find_eq (h0 : 0 ∉ root) : find fs junk target (fuel + 1) root (root ++ [slash]) =
    match fs.openPath root with
    | none => some ([(1, text "cannot open " ++ root ++ [newline])], 0)
    | some file =>
      match file.type with
      | none => some ([(1, text "cannot stat " ++ root ++ [newline])], 0)
      | some .device | some .file => some ([(2, root ++ text " is not a dir.")], -1)
      | some .dir => visit fs target (fun path => find fs junk target fuel path (path ++ [slash])) root file.entries := by
  have hmax : MAXPATH + 1 + DIRSIZ + 1 < BUFSIZE := by decide
  rw [find]
  cases hopen : fs.openPath root with
  | none => rfl
  | some file =>
    have hshort := fs.short hopen
    have hnul : 0 ∉ root ++ [slash] := nul_join h0 not_mem_nil
    have hlen : (root ++ [slash]).length = root.length + 1 := by rw [length_append, length_singleton]
    have hcopy := strcpy_eq (d := junk root) (i := 0) (s := root ++ [slash]) (show _ < BUFSIZE by omega)
    have hstr : IsStr (setBytes (junk root) 0 (root ++ [slash] ++ [0])) 0 (root ++ [slash]) := isStr_strcpy hnul
    have hat : At root (setBytes (junk root) 0 (root ++ [slash] ++ [0])) (root ++ [slash]).length :=
      ⟨h0, (isStr_iff.mp hstr).1, hlen, by omega⟩
    have hstring : string BUFSIZE (setBytes (junk root) 0 (root ++ [slash] ++ [0])) 0 = some (root ++ [slash]) :=
      hstr.string (by omega)
    simp only [if_neg (show ¬root.length + 1 + DIRSIZ + 1 > BUFSIZE by omega), hcopy, hstring, bind_eq_bind,
      bind_some, entries_eq hat]

theorem search_eq (hrel : root.head? ≠ some slash) (h0 : 0 ∉ root) (hlen : root.length < 511) :
    search fs junk root target = find fs junk target (MAXPATH + 1) root (root ++ [slash]) := by
  obtain ⟨d, hd, hs⟩ := @withSlash_eq (junk []) root h0 (show root.length + 1 < BUFSIZE from Nat.succ_lt_succ hlen)
  rw [search, if_neg hrel, hd, bind_eq_bind, bind_some, hs]
  rfl

/-! ### No store misses a buffer -/

end Paths

/-- A directory and all that is below it, in the order of its entries. -/
inductive Dir where
  | nil
  | deleted (de : Dirent) (free : de.inum = 0) (rest : Dir)
  | dots (de : Dirent) (used : de.inum ≠ 0) (name : de.str = dot ∨ de.str = dotdot) (rest : Dir)
  | device (de : Dirent) (used : de.inum ≠ 0) (rest : Dir)
  | file (de : Dirent) (used : de.inum ≠ 0) (rest : Dir)
  | sub (de : Dirent) (used : de.inum ≠ 0) (name : ¬(de.str = dot ∨ de.str = dotdot)) (below rest : Dir)

namespace Dir

/-- The entries that `read` returns. -/
def dirents : Dir → List Dirent
  | nil => []
  | deleted de _ rest => de :: rest.dirents
  | dots de _ _ rest => de :: rest.dirents
  | device de _ rest => de :: rest.dirents
  | file de _ rest => de :: rest.dirents
  | sub de _ _ _ rest => de :: rest.dirents

/-- The paths of the regular files called `target`, in order. -/
def found (target root : List UInt8) : Dir → List (List UInt8)
  | nil => []
  | deleted _ _ rest => rest.found target root
  | dots _ _ _ rest => rest.found target root
  | device _ _ rest => rest.found target root
  | file de _ rest => if de.str = target then join root de.str :: rest.found target root else rest.found target root
  | sub de _ _ below rest => below.found target (join root de.str) ++ rest.found target root

end Dir

/-- The path can be opened as a directory with these entries. -/
def Opens (fs : Files) (root : List UInt8) (des : List Dirent) : Prop :=
  fs.openPath root = some { type := some .dir, entries := des }

/-- The paths below `root` lead to the files below it, and each can be opened. -/
def Below (fs : Files) (root : List UInt8) : Dir → Prop
  | .nil => True
  | .deleted _ _ rest => Below fs root rest
  | .dots de _ _ rest => fs.stat (join root de.str) = some .dir ∧ Below fs root rest
  | .device de _ rest => fs.stat (join root de.str) = some .device ∧ Below fs root rest
  | .file de _ rest => fs.stat (join root de.str) = some .file ∧ Below fs root rest
  | .sub de _ _ below rest =>
    Opens fs (join root de.str) below.dirents ∧ Below fs (join root de.str) below ∧ Below fs root rest

section Found
variable {fs : Files} {junk : List UInt8 → Buf} {target root : List UInt8} {fuel : Nat}

theorem Opens.stat {des : List Dirent} (h : Opens fs root des) : fs.stat root = some .dir := by
  rw [Files.stat, h]
  rfl

/-- `find` on a directory is the loop over its entries. -/
theorem Opens.find {des : List Dirent} (h : Opens fs root des) (h0 : 0 ∉ root) :
    Find.find fs junk target (fuel + 1) root (root ++ [slash]) =
      visit fs target (fun path => Find.find fs junk target fuel path (path ++ [slash])) root des := by
  rw [find_eq h0, h]

/-- How a path is printed. -/
def line (path : List UInt8) : Print := (1, path ++ [newline])

/-- The loop prints what is found below, by induction on the tree. -/
theorem visit_tree (d : Dir) (hd : Below fs root d) (h0 : 0 ∉ root) (hfuel : MAXPATH < root.length + 1 + fuel) :
    visit fs target (fun path => find fs junk target fuel path (path ++ [slash])) root d.dirents =
      some ((d.found target root).map line, 0) := by
  induction d generalizing root fuel with
  | nil => rfl
  | deleted de free rest ih =>
    rw [Dir.dirents, visit, if_pos free]
    exact ih hd h0 hfuel
  | dots de used name rest ih =>
    obtain ⟨hstat, hrest⟩ := hd
    simp only [Dir.dirents, visit, if_neg used, hstat, if_pos name]
    exact ih hrest h0 hfuel
  | device de used rest ih =>
    obtain ⟨hstat, hrest⟩ := hd
    simp only [Dir.dirents, visit, if_neg used, hstat]
    exact ih hrest h0 hfuel
  | file de used rest ih =>
    obtain ⟨hstat, hrest⟩ := hd
    simp only [Dir.dirents, visit, if_neg used, hstat, ih hrest h0 hfuel, Dir.found]
    by_cases hname : de.str = target
    · rw [if_pos hname, if_pos hname]
      rfl
    · rw [if_neg hname, if_neg hname]
  | sub de used name below rest ihBelow ihRest =>
    obtain ⟨hopen, hbelow, hrest⟩ := hd
    have hshort := fs.short hopen
    have hlen : (join root de.str).length = root.length + (de.str.length + 1) := by
      rw [join, length_append, length_cons]
    obtain ⟨fuel, rfl⟩ : ∃ k, fuel = k + 1 := ⟨fuel - 1, by omega⟩
    have hnul := nul_join h0 de.nul
    have hfind : find fs junk target (fuel + 1) (join root de.str) (join root de.str ++ [slash]) =
        some ((below.found target (join root de.str)).map line, 0) := by
      rw [hopen.find hnul]
      exact ihBelow hbelow hnul (by omega)
    simp only [Dir.dirents, visit, if_neg used, hopen.stat, if_neg name, hfind, ihRest hrest h0 hfuel, Dir.found]
    rw [map_append]
    rfl

end Found

/-- `find` LISTS EXACTLY THE FILES OF THE NAME: on a tree whose paths can all be opened it prints the path of every regular
    file below the root that is called `target`, once and in the order of the entries, and returns 0. -/
theorem main_tree (fs : Files) (junk : List UInt8 → Buf) (argv : List (List UInt8)) (root target : List UInt8) (d : Dir)
    (hargv : (∃ self, argv = [self, root, target]) ∨ ∃ self, argv = [self, target] ∧ root = dot) (hnul : 0 ∉ root)
    (hrel : root.head? ≠ some slash) (hopen : Opens fs root d.dirents) (hbelow : Below fs root d) :
    main fs junk argv = some ((d.found target root).map fun path => (1, path ++ [newline]), 0) := by
  have hshort := fs.short hopen
  have hmax : MAXPATH = 128 := rfl
  have hmain : main fs junk argv = search fs junk root target := by
    obtain ⟨self, rfl⟩ | ⟨self, rfl, rfl⟩ := hargv
    · rfl
    · rfl
  rw [hmain, search_eq hrel hnul (by omega), hopen.find hnul]
  exact visit_tree d hbelow hnul (by omega)

/-- A name of `DIRSIZ` bytes. -/
def longName : List UInt8 := [97, 98, 99, 100, 101, 102, 103, 104, 105, 106, 107, 108, 109, 110]

/-- An entry with a short name. -/
def shortEntry (inum : UInt16) (b : UInt8) : Dirent := ⟨inum, [b, 0, 0, 0, 0, 0, 0, 0, 0, 0, 0, 0, 0, 0], rfl⟩

/-- Under `d`: itself, a deleted entry, a directory `s` with a file of a long name, and that file once more. -/
def sample : Dir :=
  .dots (shortEntry 2 46) (by decide) (by decide) <|
  .deleted (shortEntry 0 97) rfl <|
  .sub (shortEntry 3 115) (by decide) (by decide) (.file ⟨4, longName, rfl⟩ (by decide) .nil) <|
  .file ⟨4, longName, rfl⟩ (by decide) .nil

/-- The files of `sample`. -/
def sampleFiles : Files where
  openPath path :=
    if path = [100] then some ⟨some .dir, sample.dirents⟩
    else if path = [100, 47, 46] then some ⟨some .dir, sample.dirents⟩
    else if path = [100, 47, 115] then some ⟨some .dir, [⟨4, longName, rfl⟩]⟩
    else if path = [100, 47, 115, 47] ++ longName ∨ path = [100, 47] ++ longName then some ⟨some .file, []⟩
    else none
  short {path file} h := by
    split_ifs at h with h1 h2 h3 h4
    · rw [h1]; decide
    · rw [h2]; decide
    · rw [h3]; decide
    · obtain h4 | h4 := h4
      · rw [h4]; decide
      · rw [h4]; decide

theorem main_tree_sample :
    Opens sampleFiles [100] sample.dirents ∧ Below sampleFiles [100] sample ∧
      main sampleFiles (fun _ _ => 0) [[102], [100], longName] =
        some ([(1, [100, 47, 115, 47] ++ longName ++ [10]), (1, [100, 47] ++ longName ++ [10])], 0) := by
  have hopen : Opens sampleFiles [100] sample.dirents := rfl
  have hbelow : Below sampleFiles [100] sample := ⟨rfl, rfl, ⟨rfl, trivial⟩, rfl, trivial⟩
  exact ⟨hopen, hbelow, main_tree sampleFiles (fun _ _ => 0) [[102], [100], longName] [100] longName sample
    (.inl ⟨[102], rfl⟩) (by decide) (by decide) hopen hbelow⟩

end Xv6.Find
