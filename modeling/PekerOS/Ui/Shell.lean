import PekerOS.Lib.Run
import PekerOS.Fs.Vfs.Strings

/-!
# The shell's working directory

The shell keeps its working directory twice, as a node and as a string of at most 127 characters. `cd`
with an absolute path replaces the string, with a relative one appends to it, and with `..` cuts it at
its last slash and looks the rest up. No loop counts the characters. Together with the commands that
look paths up or list a directory, and with `sys_open`, these are the writers of the kernel's 128-byte
arrays. The tree may change from one command to the next.

## Main definitions

* `Shell`, `Command`, `step`: the shell and the commands that take a path
* `parent`, `joined`: the strings that `cd` makes
* `Command.Fits`: the commands that write no string that is too long

## Main results

* `shell_fits`: a run of such commands
-/

namespace PekerOS.Ui

open PekerOS.Vfs

variable {ι : Type}

/-- The variables of `shell.c` and the nodes on the heap. `hung` says that a call has not returned. -/
structure Shell (ι : Type) where
  cwdPath : CString
  cwdNode : Handle ι
  vfs : VfsState
  hung : Bool

/-- `sys_open`, and the commands of the shell that take a path. -/
inductive Command
  | openPath (path : CString)
  | ls (path : CString)
  | cat (path : CString)
  | exec (path : CString)
  | cd (path : CString)
deriving DecidableEq

/-! ## Strings -/

/-- `"/"` -/
abbrev rootPath : CString := ⟨[slash], slash_noNul⟩

/-- `".."` -/
abbrev dotDot : CString := ⟨[46#8, 46#8], by decide⟩

/-- The first characters of a string. -/
def CString.take (s : CString) (n : ℕ) : CString :=
  ⟨s.chars.take n, fun c hc => s.noNul c (List.mem_of_mem_take hc)⟩

/-- Where `cd ..` writes the terminator: behind the last slash, one at the end not counted. -/
def parentLength (path : List Byte) : ℕ :=
  let n := if path.getLast? = some slash then path.length - 1 else path.length
  match (List.range n).reverse.find? fun i => path[i]? = some slash with
  | some i => i + 1
  | none => 1

/-- `shell_cwd_path` after `cd ..` -/
def parent (path : CString) : CString := CString.take path (parentLength path.chars)

/-- `shell_cwd_path` after `cd` with another argument. -/
def joined (cwdPath path : CString) : CString :=
  if path.chars.head? = some slash then path
  else if cwdPath.chars.getLast? ≠ some slash then cwdPath ++ rootPath ++ path
  else cwdPath ++ path

/-! ## Commands -/

section Step

variable (d : ℕ) (t : DirTree ι) (s : Shell ι)

/-- `ls`: each name is written to a directory entry and looked up. -/
def listNames (dir : Node ι) : VfsState → List (List Byte) → VfsState
  | st, [] => st
  | st, name :: rest =>
    let (st, file) := t.vfsFinddir (st.put name) dir name
    match file with
    | none => listNames dir st rest
    | some file => listNames dir (t.vfsClose st file) rest

/-- `if (node != vfs_root && node != shell_cwd_node) vfs_close(node)` -/
def closeOther (st : VfsState) (node : Handle ι) : VfsState :=
  if node.addr ≠ t.rootAddr ∧ node.addr ≠ s.cwdNode.addr then t.vfsClose st node else st

/-- The shell when it has another node for its working directory. -/
def setCwd (st : VfsState) (path : CString) (node : Handle ι) : Shell ι where
  cwdPath := path
  cwdNode := node
  vfs := if s.cwdNode.addr ≠ t.rootAddr then t.vfsClose st s.cwdNode else st
  hung := false

/-- What `sys_open` and `elf_load` do with the node that they have looked up is left out. -/
def lookUp (base : Node ι) (path : CString) : Shell ι :=
  match t.vfsGetNodeByPath d s.vfs (some base) path with
  | (st, none) => { s with vfs := st, hung := true }
  | (st, some _) => { s with vfs := st }

def stepLs (path : CString) : Shell ι :=
  match t.vfsGetNodeByPath d s.vfs (some s.cwdNode.node) path with
  | (st, none) => { s with vfs := st, hung := true }
  | (st, some none) => { s with vfs := st }
  | (st, some (some dir)) =>
    if dir.node.flags &&& vfsDirectory ≠ 0#32 then
      { s with vfs := closeOther t s (listNames t dir.node st (t.readNames dir.node)) dir }
    -- a file is not closed
    else { s with vfs := st }

def stepCat (path : CString) : Shell ι :=
  match t.vfsGetNodeByPath d s.vfs (some s.cwdNode.node) path with
  | (st, none) => { s with vfs := st, hung := true }
  | (st, some none) => { s with vfs := st }
  | (st, some (some node)) => { s with vfs := closeOther t s st node }

def stepCd (path : CString) : Shell ι :=
  if path = dotDot then
    if s.cwdPath ≠ rootPath then
      -- `cwd_path` is cut before the lookup
      let path := parent s.cwdPath
      match t.vfsGetNodeByPath d (s.vfs.put path.chars) (some t.root) path with
      | (st, none) => { s with cwdPath := path, vfs := st, hung := true }
      | (st, some none) => { s with cwdPath := path, vfs := st }
      | (st, some (some node)) => setCwd t s st path node
    else s
  else
    match t.vfsGetNodeByPath d s.vfs (some s.cwdNode.node) path with
    | (st, none) => { s with vfs := st, hung := true }
    | (st, some none) => { s with vfs := st }
    | (st, some (some node)) =>
      if node.node.flags &&& vfsDirectory ≠ 0#32 then
        let path := joined s.cwdPath path
        setCwd t s (st.put path.chars) path node
      else { s with vfs := t.vfsClose st node }

end Step

/-- A command, issued in the tree as it is then, with calls nested at most `d` deep. A call that does not
return ends the run. -/
def step (d : ℕ) (s : Shell ι) (a : DirTree ι × Command) : Shell ι :=
  if s.hung then s
  else
    match a with
    | (t, .openPath path) => lookUp d t s t.root path
    | (t, .ls path) => stepLs d t s path
    | (t, .cat path) => stepCat d t s path
    | (t, .exec path) => lookUp d t s s.cwdNode.node path
    | (t, .cd path) => stepCd d t s path

/-! ## Commands that fit -/

/-- `ls`: the path fits, and so do the names in the directory. -/
def LsFits (t : DirTree ι) (s : Shell ι) (path : CString) : Prop :=
  t.PathFits (some s.cwdNode.node) path ∧
    ∀ dir, t.Names (some s.cwdNode.node) path dir → dir.flags &&& vfsDirectory ≠ 0#32 →
      ∀ name ∈ t.readNames dir, name.length < 128

/-- `cd`: the path that is looked up fits, and so does the new working directory. -/
def CdFits (t : DirTree ι) (s : Shell ι) (path : CString) : Prop :=
  if path = dotDot then s.cwdPath ≠ rootPath → t.PathFits (some t.root) (parent s.cwdPath)
  else t.PathFits (some s.cwdNode.node) path ∧
    ∀ dir, t.Names (some s.cwdNode.node) path dir → dir.flags &&& vfsDirectory ≠ 0#32 →
      (joined s.cwdPath path).chars.length < 128

def Command.Fits (t : DirTree ι) (s : Shell ι) : Command → Prop
  | .openPath path => t.PathFits (some t.root) path
  | .cat path | .exec path => t.PathFits (some s.cwdNode.node) path
  | .ls path => LsFits t s path
  | .cd path => CdFits t s path

/-- Every string written so far fits, and so does `shell_cwd_path`. -/
structure ShellFits (s : Shell ι) : Prop where
  strings : Vfs.Fits s.vfs
  cwdPath : s.cwdPath.chars.length < 128

section Step

variable {t : DirTree ι} {s : Shell ι} {d : ℕ} {path : CString} {st : VfsState}

theorem parent_length_le (path : CString) : (parent path).chars.length ≤ path.chars.length := by
  change (path.chars.take _).length ≤ _
  rw [List.length_take]
  exact min_le_right _ _

theorem listNames_fits {dir : Node ι} {names : List (List Byte)} (hst : Vfs.Fits st)
    (hnames : ∀ name ∈ names, name.length < 128) : Vfs.Fits (listNames t dir st names) := by
  induction names generalizing st with
  | nil => exact hst
  | cons name rest ih =>
    rw [List.forall_mem_cons] at hnames
    have hput := fits_put hst hnames.1
    unfold listNames DirTree.vfsFinddir
    cases hfind : t.findNode dir name with
    | none => exact ih hput hnames.2
    | some res =>
      exact ih (fits_vfsClose (fits_put hput (DirTree.findNode_name_lt hfind hnames.1))) hnames.2

theorem closeOther_fits {node : Handle ι} (hst : Vfs.Fits st) : Vfs.Fits (closeOther t s st node) := by
  unfold closeOther
  split
  · exact fits_vfsClose hst
  · exact hst

theorem setCwd_fits {node : Handle ι} (hst : Vfs.Fits st) (hpath : path.chars.length < 128) :
    ShellFits (setCwd t s st path node) := by
  refine ⟨?_, hpath⟩
  unfold setCwd
  dsimp only
  split
  · exact fits_vfsClose hst
  · exact hst

/-- What a call returns is named by its path. -/
theorem names_of_call {base : Option (Node ι)} {st' : VfsState} {node : Handle ι}
    (h : t.vfsGetNodeByPath d st base path = (st', some (some node))) : t.Names base path node.node := by
  have hnode : (t.vfsGetNodeByPath d st base path).node = some (some node.node) := by rw [h]; rfl
  exact (DirTree.resolves_names (DirTree.resolves_of_node hnode) node.node).mp rfl

theorem lookUp_vfs {base : Node ι} :
    (lookUp d t s base path).vfs = (t.vfsGetNodeByPath d s.vfs (some base) path).1 := by
  unfold lookUp
  rcases t.vfsGetNodeByPath d s.vfs (some base) path with ⟨st', _ | ret⟩ <;> rfl

theorem lookUp_fits {base : Node ι} (hs : ShellFits s) (hpath : t.PathFits (some base) path) :
    ShellFits (lookUp d t s base path) := by
  have hcall := DirTree.vfsGetNodeByPath_fits d hs.strings hpath
  unfold lookUp
  rcases hres : t.vfsGetNodeByPath d s.vfs (some base) path with ⟨st', _ | ret⟩
  all_goals
    rw [hres] at hcall
    exact ⟨hcall, hs.cwdPath⟩

theorem stepCat_fits (hs : ShellFits s) (hpath : t.PathFits (some s.cwdNode.node) path) :
    ShellFits (stepCat d t s path) := by
  have hcall := DirTree.vfsGetNodeByPath_fits d hs.strings hpath
  unfold stepCat
  rcases hres : t.vfsGetNodeByPath d s.vfs (some s.cwdNode.node) path with ⟨st', _ | _ | node⟩
  all_goals rw [hres] at hcall
  · exact ⟨hcall, hs.cwdPath⟩
  · exact ⟨hcall, hs.cwdPath⟩
  · exact ⟨closeOther_fits hcall, hs.cwdPath⟩

theorem stepLs_fits (hs : ShellFits s) (hfits : LsFits t s path) :
    ShellFits (stepLs d t s path) := by
  have hcall := DirTree.vfsGetNodeByPath_fits d hs.strings hfits.1
  unfold stepLs
  rcases hres : t.vfsGetNodeByPath d s.vfs (some s.cwdNode.node) path with ⟨st', _ | _ | dir⟩
  all_goals rw [hres] at hcall
  · exact ⟨hcall, hs.cwdPath⟩
  · exact ⟨hcall, hs.cwdPath⟩
  · dsimp only
    split
    · next hdir =>
      have hnames := hfits.2 dir.node (names_of_call hres) hdir
      exact ⟨closeOther_fits (listNames_fits hcall hnames), hs.cwdPath⟩
    · exact ⟨hcall, hs.cwdPath⟩

theorem stepCd_fits (hs : ShellFits s) (hfits : CdFits t s path) :
    ShellFits (stepCd d t s path) := by
  unfold stepCd
  unfold CdFits at hfits
  by_cases hup : path = dotDot
  · rw [if_pos hup] at hfits ⊢
    split
    · next hroot =>
      have hparent := (parent_length_le s.cwdPath).trans_lt hs.cwdPath
      have hcall := DirTree.vfsGetNodeByPath_fits d (fits_put hs.strings hparent) (hfits hroot)
      dsimp only
      rcases hres : t.vfsGetNodeByPath d (s.vfs.put (parent s.cwdPath).chars) (some t.root)
        (parent s.cwdPath) with ⟨st', _ | _ | node⟩
      all_goals rw [hres] at hcall
      · -- `cwd_path` is the parent's now, whatever the call returned
        exact ⟨hcall, hparent⟩
      · exact ⟨hcall, hparent⟩
      · exact setCwd_fits hcall hparent
    · exact hs
  · rw [if_neg hup] at hfits ⊢
    have hcall := DirTree.vfsGetNodeByPath_fits d hs.strings hfits.1
    rcases hres : t.vfsGetNodeByPath d s.vfs (some s.cwdNode.node) path with ⟨st', _ | _ | node⟩
    all_goals rw [hres] at hcall
    · exact ⟨hcall, hs.cwdPath⟩
    · exact ⟨hcall, hs.cwdPath⟩
    · dsimp only
      split
      · next hdir =>
        have hjoined := hfits.2 node.node (names_of_call hres) hdir
        exact setCwd_fits (fits_put hcall hjoined) hjoined
      · exact ⟨fits_vfsClose hcall, hs.cwdPath⟩

theorem step_fits {a : DirTree ι × Command} (hs : ShellFits s)
    (hfits : s.hung = false → Command.Fits a.1 s a.2) : ShellFits (step d s a) := by
  obtain ⟨t, c⟩ := a
  unfold step
  cases hhung : s.hung with
  | true => exact hs
  | false =>
    have hc := hfits hhung
    cases c with
    | openPath path => exact lookUp_fits hs hc
    | ls path => exact stepLs_fits hs hc
    | cat path => exact stepCat_fits hs hc
    | exec path => exact lookUp_fits hs hc
    | cd path => exact stepCd_fits hs hc

end Step

/-- **Strings.** Every string written in a run of commands that fit ends inside its array, however deep
the calls nest. -/
theorem shell_fits (d : ℕ) {s : Shell ι} (hs : ShellFits s) {cs : List (DirTree ι × Command)}
    (hcs : Steps (step d) (fun s a => s.hung = false → Command.Fits a.1 s a.2) s cs) :
    Along (step d) ShellFits s cs :=
  along_of_steps (I := fun _ => True) (fun _ => trivial) (fun _ hs hc => step_fits hs hc) trivial hs hcs

/-- The shell after `init_shell`, in the small tree. -/
def smallShell : Shell ℕ := ⟨rootPath, ⟨0, smallNode [slash] 0⟩, rootOnly, false⟩

theorem smallShell_fits : ShellFits smallShell := by
  refine ⟨?_, by decide⟩
  intro s hs
  exact absurd hs List.not_mem_nil

/-- `/mnt` comes to no link. -/
theorem smallTree_pathFits_mnt :
    (smallTree []).PathFits (some (smallNode [slash] 0)) ⟨mntPath, by decide⟩ := by
  intro s hs
  obtain rfl : (smallTree []).root = s := Option.some.inj hs
  have hnames : names ⟨mntPath, by decide⟩ = [mntName] := by decide
  rw [hnames]
  refine ⟨fun p n hn => ?_, fun i hi => ?_⟩
  · rw [List.mem_singleton.mp hn.mem]
    decide
  · obtain ⟨j, hj, -⟩ := hi
    rw [LinkGraph.meets_cons_node (smallTree_mnt [])] at hj
    exact absurd hj LinkGraph.not_meets_nil

/-- `cd /mnt` -/
theorem shell_fits_cd_mnt :
    Along (step 8) ShellFits smallShell [(smallTree [], .cd ⟨mntPath, by decide⟩)] := by
  refine shell_fits 8 smallShell_fits ⟨fun _ => ?_, trivial⟩
  exact ⟨smallTree_pathFits_mnt, fun _ _ _ => (by decide : mntPath.length < 128)⟩

/-- A name of 128 characters. -/
def longPath : CString := ⟨List.replicate 128 97#8, fun c hc => by
  rw [List.eq_of_mem_replicate hc]
  decide⟩

theorem longPath_length : longPath.chars.length = 128 := List.length_replicate

theorem no_slash_longPath : slash ∉ longPath.chars :=
  fun hmem => absurd (List.eq_of_mem_replicate hmem) (by decide)

/-- `sys_open` copies a name of 128 characters to `name[128]`, where its terminator does not fit. -/
theorem long_name_overflows :
    ShellFits smallShell ∧ ¬ShellFits (step 8 smallShell (smallTree [], .openPath longPath)) := by
  refine ⟨smallShell_fits, fun h => ?_⟩
  have hnames : names longPath = [longPath.chars] := by
    refine DirTree.Component.names ⟨no_slash_longPath, ?_⟩
    rintro (hnil | hdot)
    · simpa [longPath_length] using congrArg List.length hnil
    · simpa [longPath_length] using congrArg List.length hdot
  have hstart : (smallTree []).start (some (smallTree []).root) longPath = some (smallTree []).root :=
    if_neg fun hhead => no_slash_longPath (List.mem_of_head? hhead)
  have hname : longPath.chars ∈
      ((smallTree []).vfsGetNodeByPath 8 smallShell.vfs (some (smallTree []).root) longPath).1.strings :=
    DirTree.name_mem_strings 8 hstart hnames
  have hstep : step 8 smallShell (smallTree [], .openPath longPath) =
      lookUp 8 (smallTree []) smallShell (smallTree []).root longPath := by
    unfold step
    rw [if_neg (by decide)]
  rw [hstep] at h
  have hlt : longPath.chars.length < 128 := h.strings _ (by
    rw [lookUp_vfs]
    exact hname)
  simp [longPath_length] at hlt

end PekerOS.Ui
