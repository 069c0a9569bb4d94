/-
**The filesystem (`rlfs3.c`), from the bitmap up to `fs_lookup`.**

Block 0 is the superblock, blocks 1 to 32 the free block bitmap, block 34 the root node. A node has
its mode in word 0, its size (or the device number) in words 1 and 2, 150 direct indexes in words 3
to 152 and the numbers of its index blocks in words 153 to 255. A directory is a file of 32-word
entries, 31 words of name and the node's number.

Everything runs in `BlkM`, on the block cache. Buffers are memories `Nat → Word` that start at the
pointer passed, since `fs_write` copies 31 words of a name whatever its length. The character device
handlers are not here: they do not touch a block.
-/

import RlCpu.Kernel.BlkM

namespace RlCpu.Kernel

variable {δ : Type} (drv : BlkDriver δ)

/-! ### Constants and structures -/

/-- `DIRECT_INDEXES_CNT` -/
abbrev directIndexesCnt : Nat := 150

/-- The number of the root node. -/
abbrev rootIdx : Word := 34

/-- `S_IFMT` -/
abbrev sIfmt : Word := 0xf000
/-- `S_IFREG` -/
abbrev sIfreg : Word := 0x8000
/-- `S_IFBLK` -/
abbrev sIfblk : Word := 0x6000
/-- `S_IFDIR` -/
abbrev sIfdir : Word := 0x4000
/-- `S_IFCHR` -/
abbrev sIfchr : Word := 0x2000

/-- `S_ISDIR` -/
def sIsdir (mode : Word) : Bool := mode &&& sIfmt == sIfdir
/-- `S_ISCHR` -/
def sIschr (mode : Word) : Bool := mode &&& sIfmt == sIfchr
/-- `S_ISBLK` -/
def sIsblk (mode : Word) : Bool := mode &&& sIfmt == sIfblk

/-- `'/'` -/
abbrev slash : Word := 47
/-- `'.'` -/
abbrev dot : Word := 46

/-- `FS_OK` and the error codes. -/
inductive FsRv
  | ok
  | noFile
  | notADir
  | fileExists
  | noDir
  deriving DecidableEq, Repr

/-- `fs_node_t` -/
structure FsNode where
  dev : Word
  idx : Word
  deriving DecidableEq

/-- `struct mtab_entry` -/
structure MtabEntry where
  deviceNode : FsNode
  mountPoint : FsNode
  fsRoot : FsNode

/-- `struct stat`, less the fields that are always zero. -/
structure Stat where
  stDev : Word
  stIno : Word
  stMode : Word
  stRdev : Word
  stSize : Nat

/-- A string in memory: its characters, and what follows its terminator. -/
structure CString where
  chars : List Word
  nonzero : ∀ c ∈ chars, c ≠ 0#16
  after : Nat → Word

/-- The memory a string pointer points to. -/
def CString.mem (s : CString) (i : Nat) : Word :=
  match s.chars[i]? with
  | some c => c
  | none => if i = s.chars.length then 0 else s.after i

namespace BlockData

/-- `memcpy(data + at, buf, n)` -/
def blit (b : BlockData) (start n : Nat) (buf : Nat → Word) : BlockData := fun j =>
  if start ≤ j.val ∧ j.val < start + n then buf (j.val - start) else b j

/-- `memcpy(buf, data + at, n)` -/
def slice (b : BlockData) (start n : Nat) : List Word :=
  (List.range n).map fun i => b.word (start + i)

/-- `*(off_t *)&data[1]` -/
def size (b : BlockData) : Nat := (b.word 1).toNat + 2 ^ 16 * (b.word 2).toNat

/-- Assign to `*(off_t *)&data[1]`. -/
def setSize (b : BlockData) (n : Nat) : BlockData :=
  (b.put 1 (BitVec.ofNat 16 n)).put 2 (BitVec.ofNat 16 (n / 2 ^ 16))

/-- Every word 0. -/
def zero : BlockData := ofFn fun _ => 0

/-- The two inner loops of `fs_findFreeSector`: the first clear bit of a bitmap block. -/
def clearBit (b : BlockData) : Option (Nat × Nat) :=
  (List.range 256).findSome? fun i =>
    if b.word i ≠ 0xffff then
      ((List.range 16).find? fun j => (b.word i) &&& (1#16 <<< j) == 0).map fun j => (i, j)
    else none

end BlockData

/-! ### The free block bitmap -/

/-- The outer loop of `fs_findFreeSector`, over the bitmap blocks `cBitmaps`. -/
def findFreeSectorLoop (device : Word) : List Nat → BlkM δ Word
  | [] => pure 0
  | cBitmap :: rest => do
      let b ← BlkM.bread drv device (BitVec.ofNat 16 (cBitmap + 1))
      match (← BlkM.data b).clearBit with
      | some (i, j) =>
          BlkM.bfree b
          pure (BitVec.ofNat 16 (cBitmap * 4096 + i * 16 + j))
      | none =>
          BlkM.bfree b
          findFreeSectorLoop device rest

/-- `fs_findFreeSector` -/
def fsFindFreeSector (device : Word) : BlkM δ Word :=
  findFreeSectorLoop drv device (List.range 32)

/-- `fs_markSector` -/
def fsMarkSector (device sect : Word) (val : Bool) : BlkM δ Unit := do
  let cBitmap := sect >>> 12
  let sect := sect &&& 0xfff
  let idx := (sect >>> 4).toNat
  let pos := (sect &&& 0x0f).toNat
  let b ← BlkM.bread drv device (cBitmap + 1)
  let data ← BlkM.data b
  BlkM.setData b (data.put idx
    (if val then data.word idx ||| (1#16 <<< pos) else data.word idx &&& ~~~(1#16 <<< pos)))
  BlkM.setModified b
  BlkM.bfree b

/-- `fs_allocBlock` -/
def fsAllocBlock (device : Word) : BlkM δ Word := do
  let newBlock ← fsFindFreeSector drv device
  fsMarkSector drv device newBlock true
  pure newBlock

/-- `fs_freeBlock` -/
def fsFreeBlock (device b : Word) : BlkM δ Unit := fsMarkSector drv device b false

/-! ### Nodes -/

/-- `fs_stat` -/
def fsStat (node : FsNode) : BlkM δ Stat := do
  let b ← BlkM.bread drv node.dev node.idx
  let data ← BlkM.data b
  let mode := data.word 0
  let size := data.size
  BlkM.bfree b
  if sIschr mode || sIsblk mode then
    pure ⟨node.dev, node.idx, mode, BitVec.ofNat 16 size, 1⟩
  else
    pure ⟨node.dev, node.idx, mode, 0, size⟩

/-- The index block in word `iBlkOff` of a node, allocated and cleared if the word is 0. -/
def getOrAllocIndexBlock (device : Word) (nodeBlock : BlockPtr) (iBlkOff : Nat) :
    BlkM δ BlockPtr := do
  let node ← BlkM.data nodeBlock
  let iBlkIdx := node.word iBlkOff
  if iBlkIdx = 0 then
    let iBlkIdx ← fsAllocBlock drv device
    BlkM.setData nodeBlock (node.put iBlkOff iBlkIdx)
    BlkM.setModified nodeBlock
    let iBlk ← BlkM.bread drv device iBlkIdx
    BlkM.setData iBlk BlockData.zero
    BlkM.setModified iBlk
    pure iBlk
  else
    BlkM.bread drv device iBlkIdx

/-- The block in word `slot` of the index block `iBlk`, allocated if the word is 0; `iBlk` is given
back. -/
def getOrAllocSlot (device : Word) (iBlk : BlockPtr) (slot : Nat) : BlkM δ Word := do
  let index ← BlkM.data iBlk
  let retval := index.word slot
  if retval = 0 then
    let retval ← fsAllocBlock drv device
    BlkM.setData iBlk (index.put slot retval)
    BlkM.setModified iBlk
    BlkM.bfree iBlk
    pure retval
  else
    BlkM.bfree iBlk
    pure retval

/-- `getOrAllocBlockByOffset`. An `offset` past the last index block reads outside `data`. -/
def getOrAllocBlockByOffset (device : Word) (nodeBlock : BlockPtr) (offset : Nat) :
    BlkM δ Word := do
  if offset < directIndexesCnt * 256 then
    let slot := offset / 256 % 256 + 3
    let node ← BlkM.data nodeBlock
    let blk := node.word slot
    if blk = 0 then
      let blk ← fsAllocBlock drv device
      BlkM.setData nodeBlock (node.put slot blk)
      pure blk
    else
      pure blk
  else
    let offset := offset - directIndexesCnt * 256
    let iBlkOff := (offset / 65536 + (directIndexesCnt + 3)) % 65536
    if 256 ≤ iBlkOff then
      throw .wild
    else
      let iBlk ← getOrAllocIndexBlock drv device nodeBlock iBlkOff
      getOrAllocSlot drv device iBlk (offset / 256 % 256)

/-- The loop of `fs_read`, with the words read so far. -/
def fsReadLoop (device : Word) (nodeBlock : BlockPtr) (offset size : Nat) (buf : List Word) :
    BlkM δ (List Word) :=
  if size = 0 then pure buf
  else do
    let cBlock ← getOrAllocBlockByOffset drv device nodeBlock offset
    let offsetInBlock := offset % 256
    let readNow := min size (256 - offsetInBlock)
    let currentBlock ← BlkM.bread drv device cBlock
    let data ← BlkM.data currentBlock
    BlkM.bfree currentBlock
    fsReadLoop device nodeBlock (offset + readNow) (size - readNow)
      (buf ++ data.slice offsetInBlock readNow)
termination_by size
decreasing_by have := Nat.mod_lt offset (show 0 < 256 by decide); omega

/-- `fs_read`. The result is the words read; the source returns their number. -/
def fsRead (node : FsNode) (offset size : Nat) : BlkM δ (List Word) := do
  let nodeBlock ← BlkM.bread drv node.dev node.idx
  let data ← BlkM.data nodeBlock
  let stSize := data.size
  if stSize < offset then
    pure []
  else
    let size := if stSize < (offset + size) % 2 ^ 32 then (stSize - offset) % 2 ^ 16 else size
    let buf ← fsReadLoop drv node.dev nodeBlock offset size []
    BlkM.bfree nodeBlock
    pure buf

/-- The loop of `fs_write`. `cBlock` is the block of `offset`, and the block after the last word
written is asked for before the loop ends. The result is the offset reached. -/
def fsWriteLoop (device : Word) (nodeBlock : BlockPtr) (cBlock : Word) (offset size : Nat)
    (buf : Nat → Word) : BlkM δ Nat :=
  if size = 0 then pure offset
  else do
    let offsetInBlock := offset % 256
    let writeNow := min size (256 - offsetInBlock)
    let currentBlock ← BlkM.bread drv device cBlock
    let data ← BlkM.data currentBlock
    BlkM.setData currentBlock (data.blit offsetInBlock writeNow buf)
    let cBlock ← getOrAllocBlockByOffset drv device nodeBlock (offset + writeNow)
    BlkM.setModified currentBlock
    BlkM.bfree currentBlock
    fsWriteLoop device nodeBlock cBlock (offset + writeNow) (size - writeNow)
      fun i => buf (writeNow + i)
termination_by size
decreasing_by have := Nat.mod_lt offset (show 0 < 256 by decide); omega

/-- `fs_write` -/
def fsWrite (node : FsNode) (offset size : Nat) (buf : Nat → Word) : BlkM δ Nat := do
  let nodeBlock ← BlkM.bread drv node.dev node.idx
  let data ← BlkM.data nodeBlock
  let stSize := data.size
  if stSize < offset then
    pure 0
  else
    let cBlock ← getOrAllocBlockByOffset drv node.dev nodeBlock offset
    let reached ← fsWriteLoop drv node.dev nodeBlock cBlock offset size buf
    let data ← BlkM.data nodeBlock
    (if stSize < reached then BlkM.setData nodeBlock (data.setSize reached) else pure ())
    BlkM.setModified nodeBlock
    BlkM.bfree nodeBlock
    pure (reached - offset)

/-- The first loop of `fs_reset`, over the block numbers `blocks` of the data. -/
def freeDataBlocks (device : Word) (b : BlockPtr) : List Nat → BlkM δ Unit
  | [] => pure ()
  | k :: rest => do
      let blk ← getOrAllocBlockByOffset drv device b (k * 256)
      fsFreeBlock drv device blk
      freeDataBlocks device b rest

/-- The second loop of `fs_reset`, over the words `slots` of the node; it stops at the first 0. -/
def freeIndexBlocks (device : Word) (b : BlockPtr) : List Nat → BlkM δ Unit
  | [] => pure ()
  | i :: rest => do
      let data ← BlkM.data b
      if data.word i = 0 then
        pure ()
      else
        fsFreeBlock drv device (data.word i)
        freeIndexBlocks device b rest

/-- `fs_reset` -/
def fsReset (node : FsNode) : BlkM δ Unit := do
  let b ← BlkM.bread drv node.dev node.idx
  let data ← BlkM.data b
  freeDataBlocks drv node.dev b (List.range ((data.size + 255) / 256))
  freeIndexBlocks drv node.dev b (List.range' (directIndexesCnt + 3) (255 - (directIndexesCnt + 3)))
  BlkM.bfree b
  fsFreeBlock drv node.dev node.idx

end RlCpu.Kernel
