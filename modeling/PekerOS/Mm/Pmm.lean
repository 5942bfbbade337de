import PekerOS.Lib.Bitmap
import PekerOS.Lib.Run

/-!
# The physical memory manager

`pmm.c`: one bit per 4 KB frame, set while the frame is in use. `init_pmm` marks every frame,
releases what the boot loader's memory map calls available, and takes back the first megabyte and
the kernel image; after that frames are handed out one at a time or as a contiguous run.

## Main definitions

* `Pmm`: the static variables of `pmm.c`
* `initPmm`: `init_pmm`, on the boot loader's information
* `allocFrame`, `allocContiguousFrames`, `freeFrame`: the functions
* `PmmOp`, `Pmm.step`: calls in any order
-/

namespace PekerOS.Mm

/-- `FRAME_SIZE` -/
abbrev frameSize : Word := 4096#32

/-- `MAX_FRAMES` -/
abbrev maxFrames : Word := 1048576#32

/-- `MB_FLAG_MEM` -/
abbrev mbFlagMem : Word := 1#32

/-- `MB_FLAG_MMAP` -/
abbrev mbFlagMmap : Word := 64#32

/-- `MMAP_TYPE_AVAILABLE` -/
abbrev mmapTypeAvailable : Word := 1#32

/-- Where the higher half starts. -/
abbrev kernelBase : Word := 0xC0000000#32

/-- The fields of `struct multiboot_info` that `init_pmm` reads. -/
structure MultibootInfo where
  flags : Word
  memLower : Word
  memUpper : Word
  mmapLength : Word
  mmapAddr : Word

/-- `__kernel_start` and `__kernel_end`: the linker script puts the image into the higher half. -/
structure KernelImage where
  start : Word
  stop : Word
  higher : kernelBase.toNat ≤ start.toNat
  ordered : start.toNat ≤ stop.toNat

/-- The static variables of `pmm.c`. -/
structure Pmm where
  frameBitmap : Table 131072 Byte
  totalFrames : Word
  usedFramesCount : Word
  totalMemoryKb : Word

/-- `bitmap_test` -/
def bitmapTest (m : Table 131072 Byte) (frame : ℕ) : Bool :=
  (m.get (frame / 8) >>> (frame % 8)) &&& 1#8 != 0#8

/-- The frames of `for (f = lo; f < hi && f < total; f++)`. -/
def frames (lo hi total : Word) : List ℕ :=
  List.range' lo.toNat (min hi.toNat total.toNat - lo.toNat)

/-! ## `init_pmm` -/

/-- `struct multiboot_mmap_entry`, less the field nothing reads. -/
structure MmapEntry where
  size : Word
  baseAddrLow : Word
  baseAddrHigh : Word
  lengthLow : Word
  type : Word

/-- The entry at an address of the memory the boot loader filled. -/
def mmapEntry (mem : Word → Word) (addr : Word) : MmapEntry where
  size := mem addr
  baseAddrLow := mem (addr + 4#32)
  baseAddrHigh := mem (addr + 8#32)
  lengthLow := mem (addr + 12#32)
  type := mem (addr + 20#32)

/-- The frames an entry releases: its start is rounded up, its end down. -/
def mmapFrames (total : Word) (entry : MmapEntry) : List ℕ :=
  if entry.type = mmapTypeAvailable ∧ entry.baseAddrHigh = 0#32 then
    let base := entry.baseAddrLow
    let length := entry.lengthLow
    let frameStart := (base + frameSize - 1#32) / frameSize
    let frameEnd := (base + length) / frameSize
    frames frameStart frameEnd total
  else []

/-- The walk over the memory map; `none` if it has not ended after the given number of entries. -/
def mmapWalk (mem : Word → Word) (total stop : Word) :
    ℕ → Word → Table 131072 Byte → Option (Table 131072 Byte)
  | 0, _, _ => none
  | n + 1, addr, m =>
    if addr < stop then
      let entry := mmapEntry mem addr
      let m := (mmapFrames total entry).foldl Bitmap.clear m
      -- `size` does not count itself
      mmapWalk mem total stop n (addr + (entry.size + 4#32)) m
    else some m

/-- The bitmap with the usable frames released. -/
def releaseUsable (mbi : MultibootInfo) (mem : Word → Word) (fuel : ℕ) (total : Word)
    (m : Table 131072 Byte) : Option (Table 131072 Byte) :=
  if mbi.flags &&& mbFlagMmap ≠ 0#32 then
    let addr := mbi.mmapAddr + kernelBase
    let stop := addr + mbi.mmapLength
    mmapWalk mem total stop fuel addr m
  else
    -- memory from 1 MiB on, by its size in KiB
    let upperFrames := mbi.memUpper / 4#32
    let startFrame := 0x100000#32 / frameSize
    some ((frames startFrame (startFrame + upperFrames) total).foldl Bitmap.clear m)

/-- The frames of the kernel image. -/
def kernelFrames (image : KernelImage) (total : Word) : List ℕ :=
  let kernelStartAddr := image.start - kernelBase
  let kernelEndAddr := image.stop - kernelBase
  frames (kernelStartAddr / frameSize) ((kernelEndAddr + frameSize - 1#32) / frameSize) total

/-- The number of marked frames below `total`, counted one by one. -/
def countUsed (m : Table 131072 Byte) (total : Word) : Word :=
  (List.range total.toNat).foldl (fun n f => if bitmapTest m f then n + 1#32 else n) 0#32

/-- `total_memory_kb`, which stays 0 without `MB_FLAG_MEM`. -/
def memoryKb (mbi : MultibootInfo) : Word :=
  if mbi.flags &&& mbFlagMem ≠ 0#32 then mbi.memLower + mbi.memUpper + 1024#32 else 0#32

/-- `total_frames` -/
def frameCount (mbi : MultibootInfo) : Word :=
  let n := memoryKb mbi / 4#32
  if maxFrames < n then maxFrames else n

/-- `init_pmm`; `none` if the walk over the memory map does not end within `fuel` entries. -/
def initPmm (image : KernelImage) (mbi : MultibootInfo) (mem : Word → Word) (fuel : ℕ) :
    Option Pmm := do
  let total := frameCount mbi
  let m ← releaseUsable mbi mem fuel total (Table.ofFn fun _ => 0xFF#8)
  -- the first 1 MiB and the image are taken back, whatever the map says
  let m := (List.range 256).foldl Bitmap.set m
  let m := (kernelFrames image total).foldl Bitmap.set m
  return ⟨m, total, countUsed m total, memoryKb mbi⟩

/-! ## Allocation -/

/-- The frame is marked and counted. -/
def takeFrame (p : Pmm) (frame : ℕ) : Pmm :=
  { p with
    frameBitmap := Bitmap.set p.frameBitmap frame
    usedFramesCount := p.usedFramesCount + 1#32 }

/-- `search_limit`: `alloc_frame` stays below 1 GB. -/
def searchLimit (p : Pmm) : Word := if 262144#32 < p.totalFrames then 262144#32 else p.totalFrames

/-- `alloc_frame` -/
def allocFrame (p : Pmm) : Pmm × Word :=
  match (List.range (searchLimit p).toNat).find? fun f => !bitmapTest p.frameBitmap f with
  | some f => (takeFrame p f, BitVec.ofNat 32 f * frameSize)
  | none => (p, 0#32)

/-- The search of `alloc_contiguous_frames` over the frames that are left, with `current_count` and
`start_frame`. -/
def contiguousLoop (p : Pmm) (count : Word) : List ℕ → Word → ℕ → Pmm × Word
  | [], _, _ => (p, 0#32)
  | f :: fs, currentCount, startFrame =>
    if !bitmapTest p.frameBitmap f then
      let startFrame := if currentCount = 0#32 then f else startFrame
      let currentCount := currentCount + 1#32
      if currentCount = count then
        -- the end of the run is an `unsigned int`
        let stop := BitVec.ofNat 32 startFrame + count
        ((List.range' startFrame (stop.toNat - startFrame)).foldl takeFrame p,
          BitVec.ofNat 32 startFrame * frameSize)
      else contiguousLoop p count fs currentCount startFrame
    else contiguousLoop p count fs 0#32 startFrame

/-- `alloc_contiguous_frames`, for any `int`: the counters are compared with it for equality only. -/
def allocContiguousFrames (p : Pmm) (count : Word) : Pmm × Word :=
  contiguousLoop p count (List.range p.totalFrames.toNat) 0#32 0

/-- `free_frame` -/
def freeFrame (p : Pmm) (addr : Word) : Pmm :=
  let frame := (addr / frameSize).toNat
  -- a frame that is free, or none at all, is left alone
  if frame < p.totalFrames.toNat ∧ bitmapTest p.frameBitmap frame then
    { p with
      frameBitmap := Bitmap.clear p.frameBitmap frame
      usedFramesCount := p.usedFramesCount - 1#32 }
  else p

/-- `pmm_free_frames` -/
def pmmFreeFrames (p : Pmm) : Word := p.totalFrames - p.usedFramesCount

/-! ## Runs -/

/-- A call into the memory manager. -/
inductive PmmOp
  | allocFrame
  | allocContiguousFrames (count : Word)
  | freeFrame (addr : Word)

/-- The state after a call, and the address it returns. -/
def Pmm.call (p : Pmm) : PmmOp → Pmm × Word
  | .allocFrame => allocFrame p
  | .allocContiguousFrames count => allocContiguousFrames p count
  | .freeFrame addr => (freeFrame p addr, 0#32)

def Pmm.step (p : Pmm) (op : PmmOp) : Pmm := (p.call op).1

end PekerOS.Mm
