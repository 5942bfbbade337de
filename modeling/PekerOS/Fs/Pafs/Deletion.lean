import PekerOS.Fs.Pafs.Names
import PekerOS.Fs.Pafs.Namespace
import PekerOS.Fs.Pafs.Runs

/-!
# PAFS: what a deletion removes

`pafs_remove_entry` keeps a directory compact by moving its last entry into the slot of the deleted
one. It works on two copies, one of the block of the slot and one of the block of the last entry, and
writes them back one after the other. When the two are one block, the second write undoes the move:
what is lost is the last entry, and the deleted name stays.

## Main definitions

* `DeletesExactly k d name`: `pafs_delete` removes the entry of that name and no other

## Main results

* `pafsFindEntry_eq_iff`: in a directory without double names lookup reads the entries
* `Deleted.findEntry`, `Deleted.findEntry_other`, `Deleted.findEntry_kept`: lookup after a deletion
* `delete_exact_iff`: **a deletion is exact unless it loses its swap**
-/

namespace PekerOS.Pafs

/-- After the deletion the name is not found, every other name of the directory is found at the inode
it had, and the other directories and the other inodes are as they were. -/
structure DeletesExactly (k : Kernel) (d : ℕ) (name : CString) : Prop where
  removed : pafsFindEntry (pafsDelete k d name).1.fs d name = -1
  kept : ∀ m : CString, m ≠ name → pafsFindEntry k.fs d m ≠ -1 →
    pafsFindEntry (pafsDelete k d name).1.fs d m = pafsFindEntry k.fs d m
  entries : ∀ d', d' ≠ d → dirEntries (pafsDelete k d name).1.fs d' = dirEntries k.fs d'
  inodes : ∀ j, j ≠ d → (j : ℤ) ≠ pafsFindEntry k.fs d name →
    (pafsDelete k d name).1.fs.inode j = k.fs.inode j

section Lookup

variable {fs fs' : State} {d ino t n m : ℕ} {name name' : CString}

/-- Lookup reads the entries, if no name is there twice. -/
theorem pafsFindEntry_eq_iff (h : Inv fs) (hu : UniqueNames fs) (i : ℕ) :
    pafsFindEntry fs d name = i ↔ ∃ s, fs.dirent (d, s) = some (i, name.chars) := by
  constructor
  · intro hfind
    rcases h.findEntry_cases d name with hnone | ⟨ino, t, n, m, hino, hf⟩
    · omega
    · obtain rfl : ino = i := by omega
      exact ⟨t, hf.dirent⟩
  · rintro ⟨s, he⟩
    rcases h.findEntry_cases d name with hnone | ⟨ino, t, n, m, hino, hf⟩
    · exact absurd rfl ((pafsFindEntry_eq_neg_one_iff h d name).mp hnone s _ he)
    · -- the slot found holds the same name, so it is the same slot
      obtain rfl := uniqueNames_iff.mp hu d t s _ _ hf.dirent he rfl
      have hentry := hf.dirent.symm.trans he
      rw [hino, (Prod.mk.inj (Option.some.inj hentry)).1]

theorem dropSource_of_apart (hswap : t = n - 1 ∨ t / 16 ≠ (n - 1) / 16) {s : ℕ} (hs : s < n - 1) :
    dropSource t n s = if s = t then n - 1 else s := by
  by_cases hst : s = t
  · rw [if_pos hst, dropSource, if_pos ⟨hst, hswap.resolve_left (by omega)⟩]
  · rw [if_neg hst, dropSource, if_neg fun hc => hst hc.1]

/-- A deletion that keeps its swap removes the name. -/
theorem Deleted.findEntry (h : Inv fs) (hu : UniqueNames fs)
    (hdel : Deleted fs d name ino t n m fs') (hswap : t = n - 1 ∨ t / 16 ≠ (n - 1) / 16) :
    pafsFindEntry fs' d name = -1 := by
  rw [pafsFindEntry_eq_neg_one_iff (hdel.inv_result h)]
  intro s e he hname
  rw [hdel.dirent h] at he
  dsimp only at he
  rw [if_pos rfl] at he
  by_cases hs : s < n - 1
  · rw [if_pos hs, dropSource_of_apart hswap hs] at he
    -- the entry comes from a slot other than `t`, which holds the name
    have hslot := uniqueNames_iff.mp hu d _ _ _ _ hdel.toFound.dirent he hname.symm
    split at hslot <;> omega
  · simp [hs] at he

/-- A deletion that keeps its swap loses no other entry. -/
theorem Deleted.findEntry_other (h : Inv fs) (hu : UniqueNames fs)
    (hdel : Deleted fs d name ino t n m fs') (hswap : t = n - 1 ∨ t / 16 ≠ (n - 1) / 16)
    (hne : name' ≠ name) (hstored : pafsFindEntry fs d name' ≠ -1) :
    pafsFindEntry fs' d name' = pafsFindEntry fs d name' := by
  obtain ⟨i, s, n', m', hfind, hf⟩ := (h.findEntry_cases d name').resolve_left hstored
  have he := hf.dirent
  have hst : s ≠ t := by
    rintro rfl
    have hname := (Prod.mk.inj (Option.some.inj (he.symm.trans hdel.toFound.dirent))).2
    exact hne (CString.ext hname)
  have hsn : s < n := by
    by_contra hs
    rw [hdel.layout.dirent_eq hdel.dir, if_neg hs] at he
    exact absurd he (by simp)
  rw [hfind, pafsFindEntry_eq_iff (hdel.inv_result h) (hu.deleted h hdel)]
  by_cases hlast : s = n - 1
  · -- the last entry is now in slot `t`
    have hlt := hdel.lt
    refine ⟨t, ?_⟩
    rw [hdel.dirent h]
    dsimp only
    rw [if_pos rfl, if_pos (by omega), dropSource_of_apart hswap (by omega), if_pos rfl, ← hlast]
    exact he
  · -- any other entry stays in its slot
    refine ⟨s, ?_⟩
    rw [hdel.dirent h]
    dsimp only
    rw [if_pos rfl, if_pos (by omega), dropSource_of_apart hswap (by omega), if_neg hst]
    exact he

/-- A deletion that loses its swap leaves the name in its slot. -/
theorem Deleted.findEntry_kept (h : Inv fs) (hdel : Deleted fs d name ino t n m fs')
    (hlost : t ≠ n - 1) (hblock : t / 16 = (n - 1) / 16) : pafsFindEntry fs' d name ≠ -1 := by
  have hlt := hdel.lt
  have hkept : fs'.dirent (d, t) = some (ino, name.chars) := by
    rw [hdel.dirent h]
    dsimp only
    rw [if_pos rfl, if_pos (by omega), dropSource, if_neg fun hc => hc.2 hblock]
    exact hdel.toFound.dirent
  exact fun hnone => (pafsFindEntry_eq_neg_one_iff (hdel.inv_result h) d name).mp hnone t _ hkept rfl

end Lookup

/-- **A deletion is exact unless it loses its swap**: after every sequence of calls with names that
fit, a `pafs_delete` that returns 0 removes exactly the entry it names if and only if that entry is
the last one of the directory or lies in another block than the last one. -/
theorem delete_exact_iff (k₀ : Kernel) (ops : List Op) (hops : ∀ op ∈ ops, ShortName op) (d : ℕ)
    (name : CString) :
    let k := run (pafsFormat k₀) ops
    (pafsDelete k d name).2 = 0 → (DeletesExactly k d name ↔ ¬LosesSwap k.fs d name) := by
  intro k hres
  have h : Inv k.fs := Reachable.inv ⟨k₀, ops, rfl⟩
  have hu : UniqueNames k.fs := run_uniqueNames k₀ hops
  rcases pafsDelete_cases h d name with ⟨hfail, -⟩ | ⟨hfail, -⟩ | ⟨ino, t, n, m, -, hfind, hdel⟩
  · omega
  · omega
  rw [hdel.toFound.losesSwap_iff hfind hdel.empty]
  constructor
  · rintro hexact ⟨hlost, hblock⟩
    exact hdel.findEntry_kept h hlost hblock hexact.removed
  · intro hkeep
    have hswap : t = n - 1 ∨ t / 16 ≠ (n - 1) / 16 := by tauto
    refine ⟨hdel.findEntry h hu hswap, fun m hm hstored => hdel.findEntry_other h hu hswap hm hstored,
      fun d' hd' => dirEntries_congr fun s => ?_, fun j hj hne => hdel.inode_other hj ?_⟩
    · rw [hdel.dirent h, if_neg hd']
    · rintro rfl
      exact hne hfind.symm

/-- Two files in a fresh root, the last one deleted: the other is still found. -/
theorem delete_exact_last :
    let other : CString := ⟨[97#8], by decide⟩
    let name : CString := ⟨[98#8], by decide⟩
    let ops : List Op := [.create 0 other false, .create 0 name false]
    let k := run (pafsFormat ramdiskKernel) ops
    (∀ op ∈ ops, ShortName op) ∧ (pafsDelete k 0 name).2 = 0 ∧ DeletesExactly k 0 name ∧
      pafsFindEntry (pafsDelete k 0 name).1.fs 0 other = 1 := by
  intro other name ops k
  have hops : ∀ op ∈ ops, ShortName op := by
    intro op hop
    rcases List.mem_pair.mp hop with rfl | rfl
    · exact (by decide : [97#8].length ≤ 27)
    · exact (by decide : [98#8].length ≤ 27)
  have hres : (pafsDelete k 0 name).2 = 0 := by decide +kernel
  have hexact : DeletesExactly k 0 name := by
    refine (delete_exact_iff ramdiskKernel ops hops 0 name hres).mpr ?_
    rintro ⟨-, -, i, j, hslot, -, hj⟩
    have hlast : findSlot k.fs (k.fs.inode 0) name = some (0, 1) := by decide +kernel
    obtain ⟨rfl, rfl⟩ := Prod.mk.inj (Option.some.inj (hlast.symm.trans hslot))
    exact hj (by decide +kernel)
  have hother : pafsFindEntry k.fs 0 other = 1 := by decide +kernel
  refine ⟨hops, hres, hexact, ?_⟩
  rw [hexact.kept other (by decide) (by rw [hother]; decide), hother]

/-- Two files in a fresh root, the first one deleted: its name is still found. -/
theorem delete_leaves_name :
    let name : CString := ⟨[97#8], by decide⟩
    let ops : List Op := [.create 0 name false, .create 0 ⟨[98#8], by decide⟩ false]
    let k := run (pafsFormat ramdiskKernel) ops
    (∀ op ∈ ops, ShortName op) ∧ (pafsDelete k 0 name).2 = 0 ∧
      pafsFindEntry (pafsDelete k 0 name).1.fs 0 name = 1 ∧ ¬DeletesExactly k 0 name := by
  intro name ops k
  have hfound : pafsFindEntry (pafsDelete k 0 name).1.fs 0 name = 1 := by decide +kernel
  refine ⟨?_, by decide +kernel, hfound, fun hexact => ?_⟩
  · intro op hop
    rcases List.mem_cons.mp hop with rfl | hop
    · exact (by decide : [97#8].length ≤ 27)
    · obtain rfl := List.mem_singleton.mp hop
      exact (by decide : [98#8].length ≤ 27)
  · have hremoved := hexact.removed
    rw [hfound] at hremoved
    exact absurd hremoved (by decide)

end PekerOS.Pafs
