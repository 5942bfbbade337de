import PekerOS.Fs.Pafs.Invariant

/-!
# PAFS: a formatted disk

`pafs_format` marks the metadata blocks, takes the first inode for the root and the first data block
for the root's entries. Whatever the memory and the disk held before, the result satisfies the
invariant, with an empty root directory in one block.

## Main definitions

* `rootState`: the state before the metadata is saved

## Main results

* `formatState_eq`: `pafs_format` saves the metadata of `rootState`
* `Inv.format`: a formatted disk satisfies the invariant
* `layout_format`: its root is empty
-/

namespace PekerOS.Pafs

variable (fs : State)

theorem inode_blankState (i : ℕ) : (blankState fs).inode i = default := by
  by_cases h : i < 128
  · exact Table.get_ofFn (fun _ => (default : Inode)) h
  · exact State.inode_of_le _ (by omega)

theorem test_blankState (b : ℕ) :
    Bitmap.test (blankState fs).blockBitmap b = decide (b < 18) := by
  have hrange : ∀ b ∈ List.range 18, b < 8 * 512 := fun b hb => by
    have := List.mem_range.mp hb
    omega
  have := Bitmap.test_foldl_set (default : Table 512 Byte) hrange b
  simp only [List.mem_range, Bitmap.test_default, Bool.or_false] at this
  exact this

/-- The blank state with the root inode, before it has a block. -/
def rootedState : State :=
  (blankState fs).setInode 0 ⟨pafsTypeDir, 0#32, Table.ofFn fun _ => 0#32⟩

theorem inode_rootedState_zero : (rootedState fs).inode 0 = ⟨pafsTypeDir, 0#32, default⟩ :=
  State.inode_setInode_self _ (by decide) _

theorem inode_rootedState_ne {i : ℕ} (h : i ≠ 0) : (rootedState fs).inode i = default :=
  (State.inode_setInode_ne _ h _).trans (inode_blankState fs i)

theorem block_rootedState (i s : ℕ) : (rootedState fs).block i s = 0#32 := by
  by_cases h : i = 0
  · subst h
    rw [State.block, inode_rootedState_zero]
    exact Table.get_default s
  · rw [State.block, inode_rootedState_ne fs h]
    exact Table.get_default s

theorem findFreeInode_blankState : findFreeInode (blankState fs) = some 0 := by
  rw [findFreeInode_some, inode_blankState]
  exact ⟨⟨by decide, rfl⟩, fun j hj => absurd hj (by omega)⟩

theorem findFreeBlock_rootedState : findFreeBlock (rootedState fs) = some 18 := by
  rw [findFreeBlock_some, Bitmap.mem_clearBits]
  refine ⟨⟨by decide, ?_⟩, fun c hc hlt => absurd hlt (by omega)⟩
  exact (test_blankState fs 18).trans (by decide)

/-- The formatted state before its metadata is saved. -/
def rootState : State :=
  let fs := growDir (rootedState fs) 0 0 18
  { fs with sb := { fs.sb with rootInode := 0#32, freeInodes := fs.sb.freeInodes - 1#32 } }

theorem formatState_eq : formatState fs = saveMetadata (rootState fs) := by
  have halloc : allocBlock (rootedState fs) = some (takeBlock (rootedState fs) 18, 18) := by
    rw [allocBlock, findFreeBlock_rootedState]
    rfl
  have hroot : (blankState fs).setInode 0 ⟨pafsTypeDir, 0#32, Table.ofFn fun _ => 0#32⟩ =
      rootedState fs := rfl
  simp only [formatState, findFreeInode_blankState, Option.getD_some, hroot, halloc]
  rfl

theorem blocks_rootedState : Blocks (rootedState fs) where
  reserved b hb := by
    have := test_blankState fs b
    rw [decide_eq_true hb] at this
    exact this
  count := by
    have hbits : Bitmap.clearBits (rootedState fs).blockBitmap 18 4096 = Finset.Ico 18 4096 := by
      ext b
      rw [Bitmap.mem_clearBits, Finset.mem_Ico]
      have := test_blankState fs b
      change _ ∧ Bitmap.test (blankState fs).blockBitmap b = false ↔ _
      rw [this]
      simp only [decide_eq_false_iff_not]
      omega
    rw [Bitmap.clearCount, hbits, Nat.card_Ico]
    rfl
  owns := by
    refine (Owns.empty fun p => ?_).congr (fun _ => rfl) fun b => ?_
    · exact State.owner_eq_none.mpr (block_rootedState fs p.1 p.2)
    · have := test_blankState fs b
      simp only [State.used, Set.mem_ofPred_eq, Set.mem_empty_iff_false, iff_false, not_and]
      intro hb
      change ¬Bitmap.test (blankState fs).blockBitmap b = true
      rw [this]
      simp only [decide_eq_true_eq]
      omega

theorem inode_rootState (i : ℕ) : (rootState fs).inode i = (growDir (rootedState fs) 0 0 18).inode i :=
  rfl

theorem inode_rootState_ne {i : ℕ} (h : i ≠ 0) : (rootState fs).inode i = default :=
  (inode_growDir_ne h).trans (inode_rootedState_ne fs h)

theorem type_rootState_zero : ((rootState fs).inode 0).type = pafsTypeDir := by
  rw [inode_rootState, inode_growDir_self (by decide), inode_rootedState_zero]

theorem layout_rootState : Layout (rootState fs).disk ((rootState fs).inode 0) 0 1 := by
  have hempty : Layout (rootedState fs).disk ((rootedState fs).inode 0) 0 0 := by
    rw [inode_rootedState_zero]
    exact Layout.empty rfl fun i _ => Table.get_default i
  refine Layout.grow (by decide) hempty (by decide) ((blocks_rootedState fs).separate 0) (by decide) ?_
  exact fun i hi => absurd (block_rootedState fs 0 i) hi

theorem inv_rootState : Inv (rootState fs) where
  toBlocks := ((blocks_rootedState fs).takeBlock (by decide) (by decide)
    (block_rootedState fs 0 0) (findFreeBlock_rootedState fs)).congr (fun _ _ => rfl) rfl rfl
  root := rfl
  rootDir := type_rootState_zero fs
  free i hi := by
    by_cases h0 : i = 0
    · subst h0
      rw [type_rootState_zero] at hi
      exact absurd hi (by decide)
    · exact inode_rootState_ne fs h0
  dirs i hi := by
    by_cases h0 : i = 0
    · subst h0
      exact ⟨0, 1, layout_rootState fs⟩
    · rw [inode_rootState_ne fs h0] at hi
      exact absurd hi (by decide)

/-- **A formatted disk** satisfies the invariant. -/
theorem Inv.format : Inv (formatState fs) := by
  rw [formatState_eq]
  exact (inv_rootState fs).sameData State.SameData.saveMetadata

theorem sameData_format : State.SameData (rootState fs) (formatState fs) := by
  rw [formatState_eq]
  exact State.SameData.saveMetadata

/-- The root of a formatted disk is empty and has one block. -/
theorem layout_format : Layout (formatState fs).disk ((formatState fs).inode 0) 0 1 := by
  rw [(sameData_format fs).inode]
  exact (layout_rootState fs).congr fun i _ hi =>
    (sameData_format fs).data _ ((inv_rootState fs).data (i := 0) hi)

theorem freeInodes_format : (formatState fs).sb.freeInodes = 127#32 := by
  rw [formatState_eq, saveMetadata_eq]
  change BitVec.ofNat 32 pafsMaxInodes - 1#32 = 127#32
  decide

theorem inode_format_ne {i : ℕ} (h : i ≠ 0) : (formatState fs).inode i = default := by
  rw [(sameData_format fs).inode, inode_rootState_ne fs h]

end PekerOS.Pafs
