import PekerOS.Fs.Pafs.Crash

/-!
# PAFS: a machine that stops during a write to a file

A block is marked in the bitmap on the disk before anything is written to it, and it is named by the inode on
the disk only after that: the inode is the last sector of the call. Wherever a write to a file that is there
stops, the inode table is the old one or the new one, every block that an inode names is marked and named
once, and no directory has changed. What can be lost is a block that is marked and that nothing names, and
what can be mixed is the contents of the one file.

## Main definitions

* `LoopWrite m m'`: a write of one of the loops, between two bitmaps
* `Sound`: the invariant, but for blocks that are marked and named by no inode
* `Overwrites`: the call writes to a file that is there
* `Interrupted`: what the next `pafs_init` finds

## Main results

* `Intact.writeLoop_loopWrites`, `Intact.vfsWriteLoop_loopWrites`: the writes of the two loops
* `crash_write`: **a write that stops half way leaves the old inode table or the new one**
-/

namespace PekerOS.Pafs

open WriteLog

/-- Every bit set in the first bitmap is set in the second. -/
def Marks (m m' : Table 512 Byte) : Prop := ∀ b, Bitmap.test m b = true → Bitmap.test m' b = true

/-- A write of one of the loops, between two bitmaps: it saves the superblock, a bitmap between them, or a
data block. -/
inductive LoopWrite (m m' : Table 512 Byte) : Write → Prop
  | superblock (buf : Sector) : LoopWrite m m' (0, buf)
  | bitmap {map : Table 512 Byte} (h : Marks m map) (h' : Marks map m') : LoopWrite m m' (17, map)
  | data {lba : ℕ} (hlba : 18 ≤ lba) (buf : Sector) : LoopWrite m m' (lba, buf)

/-- The invariant, but for blocks that are marked and named by no inode, and for the counter of free
blocks. -/
structure Sound (fs : State) : Prop where
  reserved : ∀ b < 18, pafsBitmapTest fs b = true
  dataBlock : ∀ i s, fs.block i s ≠ 0#32 → 18 ≤ (fs.block i s).toNat ∧ (fs.block i s).toNat < 4096
  marked : ∀ i s, fs.block i s ≠ 0#32 → pafsBitmapTest fs (fs.block i s).toNat = true
  exclusive : ∀ i s, fs.block i s ≠ 0#32 → ∀ j u, fs.block j u = fs.block i s → j = i ∧ u = s
  root : fs.sb.rootInode = 0#32
  rootDir : (fs.inode 0).type = pafsTypeDir
  free : ∀ i, (fs.inode i).type = pafsTypeFree → fs.inode i = default
  dirs : ∀ i, (fs.inode i).type = pafsTypeDir → ∃ n m, Layout fs.disk (fs.inode i) n m

/-- The call writes to a file that is there. -/
def Overwrites (fs : State) (ino : ℕ) : Op → Prop
  | .write name _ _ => pafsFindEntry fs fs.sb.rootInode.toNat name = ino
  | .vfsWrite node _ _ _ => node = ino
  | _ => False

namespace Marks

variable {m m₁ m₂ : Table 512 Byte} {b : ℕ}

theorem refl (m : Table 512 Byte) : Marks m m := fun _ h => h

theorem trans (h : Marks m m₁) (h' : Marks m₁ m₂) : Marks m m₂ := fun b hb => h' b (h b hb)

theorem set (m : Table 512 Byte) (hb : b < 4096) : Marks m (Bitmap.set m b) := fun c hc => by
  rw [Bitmap.test_set _ (by omega), hc, Bool.or_true]

end Marks

theorem LoopWrite.mono {m₁ m₂ m₁' m₂' : Table 512 Byte} {w : Write} (h : LoopWrite m₁ m₂ w)
    (h₁ : Marks m₁' m₁) (h₂ : Marks m₂ m₂') : LoopWrite m₁' m₂' w := by
  cases h with
  | superblock buf => exact .superblock buf
  | bitmap h h' => exact .bitmap (h₁.trans h) (h'.trans h₂)
  | data hlba buf => exact .data hlba buf

section Loops

variable {fs mem mem' : State} {S : Set ℕ} {ino i n : ℕ}

theorem ensureBlock_loopWrites (he : ensureBlock mem ino i = some mem') :
    Marks mem.blockBitmap mem'.blockBitmap ∧
      ∀ w ∈ ensureBlockWrites mem ino i, LoopWrite mem.blockBitmap mem'.blockBitmap w := by
  unfold ensureBlock at he
  unfold ensureBlockWrites
  split at he
  · next hzero =>
    obtain ⟨⟨fs₁, b⟩, halloc, rfl⟩ := Option.map_eq_some_iff.mp he
    obtain ⟨b', hb, heq⟩ := Option.map_eq_some_iff.mp halloc
    obtain ⟨rfl, rfl⟩ := Prod.mk.inj heq
    have hset := Marks.set mem.blockBitmap (mem_clearBits_of_findFreeBlock hb).1.2
    rw [if_pos hzero, allocBlockWrites, hb]
    refine ⟨hset, ?_⟩
    change ∀ w ∈ takeBlockWrites mem b', _
    rw [takeBlockWrites, List.forall_mem_cons, List.forall_mem_singleton]
    exact ⟨.bitmap hset (Marks.refl _), .superblock _⟩
  · next hne =>
    obtain rfl := Option.some.inj he
    rw [if_neg hne]
    exact ⟨Marks.refl _, by simp⟩

theorem Intact.writeLoop_loopWrites (data : ℕ → Byte) (len done : ℕ) (h : Intact fs S mem)
    (hi : ino ∈ S) (hlt : ino < 128) (hn : i + n = 14) :
    let final := (Pafs.writeLoop ino data len n mem i done).1.blockBitmap
    Marks mem.blockBitmap final ∧
      ∀ w ∈ writeLoopWrites ino data len n mem i done, LoopWrite mem.blockBitmap final w := by
  induction n generalizing mem i done with
  | zero => exact ⟨Marks.refl _, by simp [writeLoopWrites]⟩
  | succ n ih =>
    rw [writeLoopWrites, Pafs.writeLoop]
    split
    · cases he : Pafs.ensureBlock mem ino i with
      | none => exact ⟨Marks.refl _, by simp⟩
      | some mem₁ =>
        obtain ⟨-, h₁, hne⟩ := h.ensureBlock hi hlt (by omega) he
        obtain ⟨hmarks, hens⟩ := ensureBlock_loopWrites he
        have hrest := fun buf done => ih (i := i + 1) done
          (h₁.diskWrite (h₁.ne_of_block hi i) buf) (by omega)
        refine ⟨hmarks.trans (hrest _ _).1, ?_⟩
        rw [List.forall_mem_append, List.forall_mem_cons]
        exact ⟨fun w hw => (hens w hw).mono (Marks.refl _) (hrest _ _).1,
          .data (h₁.dataBlock ino i hne).1 _, fun w hw => ((hrest _ _).2 w hw).mono hmarks (Marks.refl _)⟩
    · exact ⟨Marks.refl _, by simp⟩

theorem Intact.vfsWriteLoop_loopWrites (buffer : ℕ → Byte) (size off done : ℕ)
    (h : Intact fs S mem) (hi : ino ∈ S) (hlt : ino < 128) (hn : n = 0 ∨ i + n = 14) :
    let final := (Pafs.vfsWriteLoop ino buffer size n mem i off done).1.blockBitmap
    Marks mem.blockBitmap final ∧
      ∀ w ∈ vfsWriteLoopWrites ino buffer size n mem i off done,
        LoopWrite mem.blockBitmap final w := by
  induction n generalizing mem i off done with
  | zero => exact ⟨Marks.refl _, by simp [vfsWriteLoopWrites]⟩
  | succ n ih =>
    rw [vfsWriteLoopWrites, Pafs.vfsWriteLoop]
    split
    · cases he : Pafs.ensureBlock mem ino i with
      | none => exact ⟨Marks.refl _, by simp⟩
      | some mem₁ =>
        obtain ⟨-, h₁, hne⟩ := h.ensureBlock hi hlt (by omega) he
        obtain ⟨hmarks, hens⟩ := ensureBlock_loopWrites he
        have hrest := fun buf done => ih (i := i + 1) 0 done
          (h₁.diskWrite (h₁.ne_of_block hi i) buf) (by omega)
        refine ⟨hmarks.trans (hrest _ _).1, ?_⟩
        rw [List.forall_mem_append, List.forall_mem_cons]
        exact ⟨fun w hw => (hens w hw).mono (Marks.refl _) (hrest _ _).1,
          .data (h₁.dataBlock ino i hne).1 _, fun w hw => ((hrest _ _).2 w hw).mono hmarks (Marks.refl _)⟩
    · exact ⟨Marks.refl _, by simp⟩

end Loops

section Interrupted

variable {fs fs' final : State} {ino : ℕ} {ws : List Write} {w : Write}

theorem Inv.sound (h : Inv fs) : Sound fs where
  reserved := h.reserved
  dataBlock _ _ hs := (h.mem_used hs).1
  marked _ _ hs := (h.mem_used hs).2
  exclusive i s hs j u heq := by
    obtain ⟨rfl, rfl⟩ := h.inj hs (congrArg BitVec.toNat heq.symm)
    exact ⟨rfl, rfl⟩
  root := h.root
  rootDir := h.rootDir
  free := h.free
  dirs := h.dirs

/-- The loop writes no inode, and bitmaps between the two. -/
theorem mount_loopWrites {m' : Table 512 Byte} (hfs : Recoverable fs) (hm : Marks fs.blockBitmap m')
    (hws : ∀ w ∈ ws, LoopWrite fs.blockBitmap m' w) :
    let mounted := pafsInitRead (replay fs.disk ws)
    mounted.inodes = fs.inodes ∧ Marks fs.blockBitmap mounted.blockBitmap ∧
      Marks mounted.blockBitmap m' := by
  obtain ⟨c, hmount⟩ := hfs.pafsInitRead_eq
  have hkeep : ∀ disk, loadInodes disk = fs.inodes ∧ Marks fs.blockBitmap (disk 17) ∧
      Marks (disk 17) m' → ∀ w, LoopWrite fs.blockBitmap m' w →
      loadInodes (Function.update disk w.1 w.2) = fs.inodes ∧
        Marks fs.blockBitmap (Function.update disk w.1 w.2 17) ∧
        Marks (Function.update disk w.1 w.2 17) m' := by
    intro disk h w hw
    have hinodes : ∀ lba buf, (∀ k < 16, 1 + k ≠ lba) →
        loadInodes (Function.update disk lba buf) = fs.inodes := by
      intro lba buf hne
      rw [← h.1]
      refine Table.ext_get fun i hi => ?_
      rw [loadInodes, loadInodes, Table.get_ofFn _ hi, Table.get_ofFn _ hi,
        Function.update_of_ne (hne (i / 8) (by omega))]
    cases hw with
    | superblock buf =>
      refine ⟨hinodes 0 buf (by omega), ?_⟩
      rw [Function.update_of_ne (by omega)]
      exact h.2
    | bitmap h₁ h₂ =>
      refine ⟨hinodes 17 _ (by omega), ?_⟩
      rw [Function.update_self]
      exact ⟨h₁, h₂⟩
    | data hlba buf =>
      refine ⟨hinodes _ buf (by omega), ?_⟩
      rw [Function.update_of_ne (by omega)]
      exact h.2
  refine replay_keeps (P := fun disk => loadInodes disk = fs.inodes ∧
    Marks fs.blockBitmap (disk 17) ∧ Marks (disk 17) m') ?_ fun w hw disk h => hkeep disk h w (hws w hw)
  have hinodes := congrArg State.inodes hmount
  have hmap := congrArg State.blockBitmap hmount
  refine ⟨hinodes, ?_⟩
  change Marks _ (pafsInitRead fs.disk).blockBitmap ∧ Marks (pafsInitRead fs.disk).blockBitmap _
  rw [hmap]
  exact ⟨Marks.refl _, hm⟩

/-- What is mounted when the inode has not been saved yet. -/
theorem Intact.sound (hinv : Inv fs) (ht : (fs.inode ino).type = pafsTypeFile)
    (h : Intact fs {i | i = ino} fs') (hinodes : fs'.inodes = fs.inodes)
    (hmap : Marks fs.blockBitmap fs'.blockBitmap) :
    Sound fs' ∧ ∀ p, fs'.dirent p = fs.dirent p := by
  have hinode : ∀ i, fs'.inode i = fs.inode i := fun i => by rw [State.inode, hinodes, State.inode]
  have hblock : ∀ i s, fs'.block i s = fs.block i s := fun i s => by
    rw [State.block, hinode, State.block]
  have hold := hinv.sound
  refine ⟨⟨fun b hb => hmap b (hold.reserved b hb), ?_, ?_, ?_, h.rootInode.trans hinv.root, ?_, ?_, ?_⟩,
    fun p => ?_⟩
  · simpa only [hblock] using hold.dataBlock
  · intro i s hs
    rw [hblock] at hs ⊢
    exact hmap _ (hold.marked i s hs)
  · simpa only [hblock] using hold.exclusive
  · rw [hinode]
    exact hinv.rootDir
  · simpa only [hinode] using hinv.free
  · intro i hi
    rw [hinode] at hi ⊢
    obtain ⟨n, m, hl⟩ := hinv.dirs i hi
    have hne : i ≠ ino := by
      rintro rfl
      rw [ht] at hi
      exact absurd hi (by decide)
    exact ⟨n, m, hl.congr fun s _ hs => h.data i hne s hs⟩
  · obtain ⟨d, s⟩ := p
    by_cases hd : d = ino
    · subst hd
      have hfile : (fs.inode d).type ≠ pafsTypeDir := by rw [ht]; decide
      rw [dirent_of_not_dir hfile, dirent_of_not_dir (by rwa [hinode])]
    · exact dirent_congr (hinode d) fun u hu => h.data d hd u hu

end Interrupted

section Interrupted

variable {k : Kernel} {fs final : State} {ino : ℕ} {ws : List Write} {w : Write} {op : Op}

/-- What the next `pafs_init` finds when a write to a file has been interrupted. -/
structure Interrupted (fs : State) (ino : ℕ) (final fs' : State) : Prop where
  sound : Sound fs'
  inodes : fs'.inodes = fs.inodes ∨ fs'.inodes = final.inodes
  dirent : ∀ p, fs'.dirent p = fs.dirent p
  /-- A block that is marked was marked before, or it is one that the call takes for the file. -/
  leaks : ∀ b, pafsBitmapTest fs' b = true → pafsBitmapTest fs b = true ∨
    ∃ s, final.block ino s ≠ 0#32 ∧ (final.block ino s).toNat = b

/-- The blocks marked at the end were marked before, or belong to the file. -/
theorem OnlyFile.leaks (hinv : Inv fs) (hfinal : Inv final) (ho : OnlyFile ino fs final) {b : ℕ}
    (hb : pafsBitmapTest final b = true) : pafsBitmapTest fs b = true ∨
      ∃ s, final.block ino s ≠ 0#32 ∧ (final.block ino s).toNat = b := by
  by_cases hlow : b < 18
  · exact Or.inl (hinv.reserved b hlow)
  by_cases hhigh : b < 4096
  · obtain ⟨⟨j, s⟩, hs⟩ := hfinal.owns.owner (b := b) ⟨⟨by omega, hhigh⟩, hb⟩
    obtain ⟨hne, rfl⟩ := State.owner_eq_some.mp hs
    by_cases hj : j = ino
    · exact Or.inr ⟨s, hj ▸ hne, hj ▸ rfl⟩
    · left
      rw [ho.block hj] at hne ⊢
      exact (hinv.mem_used hne).2
  · -- there is no such bit
    have hzero : (default : Byte).getLsbD (b % 8) = false := BitVec.getLsbD_zero
    rw [pafsBitmapTest, Bitmap.test_eq, Table.get_of_le _ (by omega), hzero] at hb
    exact absurd hb (by decide)

/-- The writes of a loop, followed by that of the inode, with any number of them made. -/
theorem interrupted_of_loop (hinv : Inv fs) (hfs : Recoverable fs) (hfinal : Inv final)
    (hsaved : Recoverable final) (ht : (fs.inode ino).type = pafsTypeFile) (ho : OnlyFile ino fs final)
    (hmarks : Marks fs.blockBitmap final.blockBitmap)
    (hloop : ∀ w ∈ ws, LoopWrite fs.blockBitmap final.blockBitmap w)
    (hsafe : ∀ w ∈ ws, SafeWrite fs {i | i = ino} w)
    (hall : replay fs.disk (ws ++ [w]) = final.disk) (n : ℕ) :
    Interrupted fs ino final (pafsInitRead (replay fs.disk ((ws ++ [w]).take n))) := by
  rcases take_concat_cases ws w n with hwhole | hpart
  · -- the whole call: what is read back is its result
    obtain ⟨c, hmount⟩ := hsaved.pafsInitRead_eq
    rw [hwhole, hall, hmount]
    have hsound := hfinal.sound
    exact ⟨⟨hsound.reserved, hsound.dataBlock, hsound.marked, hsound.exclusive, hsound.root,
      hsound.rootDir, hsound.free, hsound.dirs⟩, Or.inr rfl,
      ho.dirent (by rw [ht]; decide), fun b hb => ho.leaks hinv hfinal hb⟩
  · rw [hpart]
    have hmem : ∀ v ∈ ws.take n, v ∈ ws := fun v hv => List.mem_of_mem_take hv
    obtain ⟨hinodes, hold, hnew⟩ := mount_loopWrites hfs hmarks fun v hv => hloop v (hmem v hv)
    have hintact := (Intact.mount hinv hfs _).mount_writes fun v hv => hsafe v (hmem v hv)
    obtain ⟨hsound, hdirent⟩ := hintact.sound hinv ht hinodes hold
    exact ⟨hsound, Or.inl hinodes, hdirent, fun b hb => ho.leaks hinv hfinal (hnew b hb)⟩

theorem interrupted_refl (hinv : Inv fs) (hfs : Recoverable fs) (ino : ℕ) (final : State) (n : ℕ) :
    Interrupted fs ino final (pafsInitRead (replay fs.disk (([] : List Write).take n))) := by
  obtain ⟨c, hmount⟩ := hfs.pafsInitRead_eq
  rw [List.take_nil, replay_nil, hmount]
  have hsound := hinv.sound
  exact ⟨⟨hsound.reserved, hsound.dataBlock, hsound.marked, hsound.exclusive, hsound.root,
    hsound.rootDir, hsound.free, hsound.dirs⟩, Or.inl rfl, fun _ => rfl, fun _ hb => Or.inl hb⟩

theorem interrupted_writeFile (hinv : Inv k.fs) (hfs : Recoverable k.fs) (ino : ℕ) (data : ℕ → Byte)
    (len : ℤ) (n : ℕ) :
    Interrupted k.fs ino (pafsWriteFile k ino data len).1.fs
      (pafsInitRead (replay k.fs.disk ((writeFileWrites k.fs ino data len).take n))) := by
  by_cases ht : (k.fs.inode ino).type = pafsTypeFile
  · have hlt : ino < 128 := State.lt_of_type_ne (by rw [ht]; decide)
    obtain ⟨hfinal, ho⟩ := hinv.writeFile ino data len
    have hsaved := Recoverable.writeFile hinv hfs ino data len
    have hall := replay_writeFileWrites k ino data len
    have hbase : Intact k.fs {i | i = ino} k.fs := Intact.refl hinv _
    obtain ⟨hsafe, -⟩ := hbase.writeLoop data len.toNat 0 (show ino ∈ {i | i = ino} from rfl) hlt
      (show 0 + 14 = 14 from rfl)
    obtain ⟨hmarks, hloop⟩ := hbase.writeLoop_loopWrites data len.toNat 0
      (show ino ∈ {i | i = ino} from rfl) hlt (show 0 + 14 = 14 from rfl)
    have hmap : (pafsWriteFile k ino data len).1.fs.blockBitmap =
        (writeLoop ino data len.toNat 14 k.fs 0 0).1.blockBitmap := by
      rw [fs_pafsWriteFile ht]
      rfl
    rw [writeFileWrites, if_neg (not_not.mpr ht)] at hall ⊢
    refine interrupted_of_loop hinv hfs hfinal hsaved ht ho ?_ ?_ hsafe hall n
    · rw [hmap]
      exact hmarks
    · rw [hmap]
      exact hloop
  · rw [writeFileWrites, if_pos ht]
    exact interrupted_refl hinv hfs ino _ n

theorem interrupted_vfsWrite (hinv : Inv k.fs) (hfs : Recoverable k.fs) (ino : ℕ)
    (offset size : Word) (buffer : ℕ → Byte) (n : ℕ) :
    Interrupted k.fs ino (pafsVfsWrite k ino offset size buffer).1.fs
      (pafsInitRead (replay k.fs.disk ((vfsWriteWrites k.fs ino offset size buffer).take n))) := by
  by_cases ht : (k.fs.inode ino).type = pafsTypeFile
  · have hlt : ino < 128 := State.lt_of_type_ne (by rw [ht]; decide)
    obtain ⟨hfinal, ho⟩ := hinv.vfsWrite ino offset size buffer
    have hsaved := Recoverable.vfsWrite hinv hfs ino offset size buffer
    have hall := replay_vfsWriteWrites k ino offset size buffer
    have hbase : Intact k.fs {i | i = ino} k.fs := Intact.refl hinv _
    obtain ⟨hsafe, -⟩ := hbase.vfsWriteLoop (n := 14 - offset.toNat / 512)
      (i := offset.toNat / 512) buffer size.toNat (offset.toNat % 512) 0
      (show ino ∈ {i | i = ino} from rfl) hlt (by omega)
    obtain ⟨hmarks, hloop⟩ := hbase.vfsWriteLoop_loopWrites (n := 14 - offset.toNat / 512)
      (i := offset.toNat / 512) buffer size.toNat (offset.toNat % 512) 0
      (show ino ∈ {i | i = ino} from rfl) hlt (by omega)
    have hmap : (pafsVfsWrite k ino offset size buffer).1.fs.blockBitmap =
        (vfsWriteLoop ino buffer size.toNat (14 - offset.toNat / 512) k.fs (offset.toNat / 512)
          (offset.toNat % 512) 0).1.blockBitmap := by
      rw [fs_pafsVfsWrite ht]
      dsimp only
      split <;> rfl
    rw [vfsWriteWrites, if_neg (not_not.mpr ht)] at hall ⊢
    refine interrupted_of_loop hinv hfs hfinal hsaved ht ho ?_ ?_ hsafe hall n
    · rw [hmap]
      exact hmarks
    · rw [hmap]
      exact hloop
  · rw [vfsWriteWrites, if_pos ht]
    exact interrupted_refl hinv hfs ino _ n

/-- **A write that stops half way leaves the old inode table or the new one**: in every reachable state,
whatever number of the sector writes of a call that overwrites a file has been made, the next `pafs_init`
finds a sound file system with the same entries in every directory, whose inodes are all as before the
call or all as after it; a block that is marked and was not is one that the call takes for the file. -/
theorem crash_write (h : Reachable k) (hop : Overwrites k.fs ino op) (n : ℕ) :
    Interrupted k.fs ino (step k op).fs
      (pafsInitRead (replay k.fs.disk ((opWrites k op).take n))) := by
  have hinv := h.inv
  have hfs := Recoverable.of_reachable h
  cases op with
  | write name data len =>
    have hlock : k.lock.touchDisk.fs = k.fs := by simp
    have hroot : k.fs.sb.rootInode.toNat = 0 := by rw [hinv.root]; rfl
    rw [Overwrites] at hop
    have hstep : (step k (.write name data len)).fs =
        (pafsWriteFile k.lock.touchDisk ino data len).1.fs := by
      simp only [step, pafsWrite, hlock, hop]
      rw [if_neg (by omega), Int.toNat_natCast]
    have hwrites : opWrites k (.write name data len) = writeFileWrites k.fs ino data len := by
      simp only [opWrites, writeWrites, hlock, hop]
      rw [if_neg (by omega), Int.toNat_natCast]
    rw [hstep, hwrites]
    have := interrupted_writeFile (k := k.lock.touchDisk) (hlock ▸ hinv) (hlock ▸ hfs) ino data len n
    rwa [hlock] at this
  | vfsWrite node offset size buffer =>
    obtain rfl : (node : ℕ) = ino := hop
    exact interrupted_vfsWrite hinv hfs node offset size buffer n
  | _ => exact hop.elim

/-- Five bytes for a new file, and the machine stops after the block has been marked: nothing names it. -/
theorem crash_write_marked :
    let k := run (pafsFormat ramdiskKernel) [.create 0 ⟨[97#8], by decide⟩ false]
    let op := Op.vfsWrite 1 0#32 5#32 fun _ => 65#8
    let fs' := pafsInitRead (replay k.fs.disk ((opWrites k op).take 1))
    pafsBitmapTest fs' 19 = true ∧ fs'.block 1 0 = 0#32 ∧
      Interrupted k.fs 1 (step k op).fs fs' := by
  intro k op fs'
  refine ⟨by decide +kernel, by decide +kernel, ?_⟩
  exact @crash_write k 1 op ⟨ramdiskKernel, _, rfl⟩ rfl 1

end Interrupted

end PekerOS.Pafs
