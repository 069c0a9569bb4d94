/-
**The filesystem (`rlfs3.c`), from directories up to the calls on open files.**

Directories are searched and extended by `fs_finddir` and `fs_create`, paths are walked by
`fs_lookup`, and `k_open`, `k_mkdir`, `k_mknod`, `k_unlink`, `k_read`, `k_write` and `k_close` are what
the system calls use. `fs_mkfs` makes an empty filesystem.

`FsEnv` is what these functions read and none of them changes: the root, the working directory of the
caller, the mount table, the table of character devices, the memory after the string literals, and the
stack under a variable that is not written whole.
`open` and `close` handlers of devices change nothing here and are left out.
-/

import RlCpu.Kernel.Rlfs
import RlCpu.Kernel.Set

namespace RlCpu.Kernel

variable {δ : Type} (drv : BlkDriver δ)

/-! ### Constants and structures -/

/-- `O_WRONLY` -/
abbrev oWronly : Word := 1
/-- `O_APPEND` -/
abbrev oAppend : Word := 4
/-- `O_CREAT` -/
abbrev oCreat : Word := 256

/-- `MAX_FILES` -/
abbrev maxFiles : Nat := 10
/-- `MAX_DEVS` -/
abbrev maxDevs : Nat := 10

instance : NeZero maxFiles := ⟨nofun⟩

/-- `FILE` -/
structure File where
  mode : Word
  node : FsNode
  size : Nat
  pos : Nat
  device : Word
  flags : Word
  refcnt : Word

/-- `FILE *`, other than `NULL`. -/
abbrev FilePtr := Fin maxFiles

/-- The character devices: which majors are registered, and what their `write` and `read` handlers
return for a minor and a size. -/
structure CharDevs where
  registered : Word → Bool
  write : Word → Word → Nat → Nat
  read : Word → Word → Nat → List Word

/-- What the filesystem functions read. -/
structure FsEnv where
  fsRoot : FsNode
  cwd : FsNode
  mtab : List MtabEntry
  devs : CharDevs
  /-- What follows the string literals in memory. -/
  literals : Nat → Word
  /-- What the stack holds where `fs_finddir` has its entry, at the end of the table of a node. -/
  stack : FsNode → Nat → Word

/-- The cache with the devices, and the set of open files. -/
structure FsState (δ : Type) where
  blk : BlkState δ
  openFiles : KSet File maxFiles

/-- Kernel code over the cache and the open files. -/
abbrev FsM (δ : Type) := StateT (FsState δ) (Except Fault)

/-- Code that uses the cache only. -/
def onBlk {α : Type} (p : BlkM δ α) : FsM δ α := fun s =>
  match p s.blk with
  | .ok (x, t) => .ok (x, { s with blk := t })
  | .error e => .error e

namespace CString

/-- The characters with the terminator. -/
def words (s : CString) : List Word := s.chars ++ [0]

/-- The literal `"."`. -/
def dotName (env : FsEnv) : CString := ⟨[dot], by simp, env.literals⟩

/-- The literal `".."`. -/
def dotDotName (env : FsEnv) : CString := ⟨[dot, dot], by simp, env.literals⟩

/-- The part of a path after its last `'/'`. -/
def baseName (s : CString) : CString where
  chars := (s.chars.reverse.takeWhile (· ≠ slash)).reverse
  nonzero c mem := s.nonzero c <|
    List.mem_reverse.mp ((List.takeWhile_sublist _).subset (List.mem_reverse.mp mem))
  after i := s.after (s.chars.length - (s.chars.reverse.takeWhile (· ≠ slash)).length + i)

/-- A path without its last character: the terminator was moved there. -/
def dropLast (s : CString) : CString where
  chars := s.chars.dropLast
  nonzero c mem := s.nonzero c (List.mem_of_mem_dropLast mem)
  after i := if i = s.chars.length then 0 else s.after i

/-- A path without a `'/'` at its end. -/
def trimmed (s : CString) : CString := if s.chars.getLast? = some slash then s.dropLast else s

end CString

/-- `!strcmp(a, b)`. Two strings that do not end are not equal; no caller has such. -/
def strcmpEq : List Word → List Word → Bool
  | a :: as, b :: bs => if a ≠ b then false else if a = 0 then true else strcmpEq as bs
  | _, _ => false

/-! ### Directories -/

/-- `fs_mtab_seek` -/
def fsMtabSeek (mtab : List MtabEntry) (mountPoint : FsNode) : Option MtabEntry :=
  mtab.find? fun ent => ent.mountPoint = mountPoint

/-- `fs_mtab_rseek` -/
def fsMtabRseek (mtab : List MtabEntry) (fsRoot : FsNode) : Option MtabEntry :=
  mtab.find? fun ent => ent.fsRoot = fsRoot

/-- `dEnt` after `fs_read`: a short read leaves the words behind as they are on the stack. -/
def dEntOf (env : FsEnv) (dir : FsNode) (words : List Word) : List Word :=
  words ++ (List.range' words.length (32 - words.length)).map (env.stack dir)

/-- The node that an entry names: the root of the filesystem that is mounted there, if there is one. -/
def crossMount (mtab : List MtabEntry) (res : FsNode) : FsNode :=
  match fsMtabSeek mtab res with
  | some ent => ent.fsRoot
  | none => res

/-- The loop of `fs_finddir`, over the entries `entries`. -/
def finddirLoop (env : FsEnv) (dir : FsNode) (what : List Word) :
    List Nat → BlkM δ (Option FsNode)
  | [] => pure none
  | i :: rest => do
      let dEnt := dEntOf env dir (← fsRead drv dir (i * 32) 32)
      if strcmpEq dEnt what then pure (some (crossMount env.mtab ⟨dir.dev, dEnt.getD 31 0⟩))
      else finddirLoop env dir what rest

/-- The directory `fs_finddir` searches: `..` at the root of a mounted filesystem is looked up where
it is mounted. -/
def finddirWhere (mtab : List MtabEntry) (dir : FsNode) (what : List Word) : FsNode :=
  if strcmpEq what [dot, dot, 0] then
    match fsMtabRseek mtab dir with
    | some ent => ent.mountPoint
    | none => dir
  else dir

/-- `fs_finddir`: the directory that was searched and the node found; `none` is `FS_NO_FILE`. -/
def fsFinddir (env : FsEnv) (dir : FsNode) (what : List Word) : BlkM δ (FsNode × Option FsNode) := do
  let dir := finddirWhere env.mtab dir what
  let s ← fsStat drv dir
  let found ← finddirLoop drv env dir what (List.range ((s.stSize + 31) / 32))
  pure (dir, found)

/-- `fs_create`, with `where` and `res` as it leaves them. -/
def fsCreate (env : FsEnv) (dir : FsNode) (name : CString) (flags : Word) (res : FsNode) :
    BlkM δ (FsRv × FsNode × FsNode) := do
  let s ← fsStat drv dir
  if sIsdir s.stMode then
    match ← fsFinddir drv env dir name.words with
    | (dir, some found) => pure (.fileExists, dir, found)
    | (dir, none) =>
        let newBlock ← fsAllocBlock drv dir.dev
        let _ ← fsWrite drv dir s.stSize 31 name.mem
        let _ ← fsWrite drv dir (s.stSize + 31) 1 fun _ => newBlock
        let b ← BlkM.bread drv dir.dev newBlock
        BlkM.setData b (BlockData.zero.put 0 flags)
        BlkM.setModified b
        BlkM.bfree b
        pure (.ok, dir, { res with idx := newBlock })
  else pure (.notADir, dir, res)

/-- A component is not empty. -/
theorem dropComponent_length {path : List Word} (some : path.dropWhile (· = slash) ≠ []) :
    ((path.dropWhile (· = slash)).dropWhile (· ≠ slash)).length < path.length := by
  induction path with
  | nil => exact absurd rfl some
  | cons c tail ih =>
    by_cases here : c = slash
    · have skip : (c :: tail).dropWhile (· = slash) = tail.dropWhile (· = slash) := by
        rw [List.dropWhile_cons, if_pos (decide_eq_true here)]
      rw [skip] at some ⊢
      exact (ih some).trans (Nat.lt_succ_self _)
    · have stay : (c :: tail).dropWhile (· = slash) = c :: tail := by
        rw [List.dropWhile_cons, if_neg (by simpa using here)]
      rw [stay, List.dropWhile_cons, if_pos (decide_eq_true here)]
      exact Nat.lt_succ_of_le (List.dropWhile_sublist _).length_le

/-- The loop of `fs_lookup`, on what is left of the path; the result has the parent and the node
reached. A component longer than 31 words is copied past the end of `cBuf`. -/
def lookupLoop (env : FsEnv) (path : List Word) (parent res : FsNode) :
    BlkM δ (FsRv × FsNode × FsNode) :=
  let path' := path.dropWhile (· = slash)
  if path' = [] then pure (.ok, parent, res)
  else do
    let component := path'.takeWhile (· ≠ slash)
    let rest := path'.dropWhile (· ≠ slash)
    if 31 < component.length then throw .wild
    else
      match ← fsFinddir drv env res (component ++ [0]) with
      | (dir, none) => pure (if rest = [] then .noFile else .noDir, res, dir)
      | (_, some node) =>
          if rest = [] then pure (.ok, res, node)
          else lookupLoop env rest res node
termination_by path.length
decreasing_by exact dropComponent_length (by assumption)

/-- `fs_lookup`: the result, the parent and the node. -/
def fsLookup (env : FsEnv) (name : List Word) : BlkM δ (FsRv × FsNode × FsNode) :=
  let start := if name.head? = some slash then env.fsRoot else env.cwd
  if name = [] then pure (.ok, start, start) else lookupLoop drv env name start start

/-- `fs_readdir`: the words read, and whether it was a whole entry. -/
def fsReaddir (dir : FsNode) (n : Nat) : BlkM δ (List Word) := fsRead drv dir n 32

/-! ### Calls -/

/-- The search loop of `k_unlink`, over the entries of the parent. -/
def unlinkLoop (parent : FsNode) (idx : Word) : List Nat → BlkM δ Bool
  | [] => pure false
  | i :: rest => do
      let res ← fsReaddir drv parent (i * 32)
      if res.length ≠ 32 then throw .wild
      else if res.getD 31 0 = idx then
        let res := (res.set 31 0).set 0 0
        let _ ← fsWrite drv parent (i * 32) 32 fun j => res.getD j 0
        pure true
      else unlinkLoop parent idx rest

/-- `k_unlink`; `true` is 0, `false` is -1. -/
def kUnlink (env : FsEnv) (name : CString) : FsM δ Bool := onBlk do
  match ← fsLookup drv env name.chars with
  | (.ok, parent, nd) =>
      fsReset drv nd
      let parentSt ← fsStat drv parent
      unlinkLoop drv parent nd.idx (List.range ((parentSt.stSize + 31) / 32))
  | _ => pure false

/-- `set_insert(&openFiles, &f)` -/
def insertFile (f : File) : FsM δ FilePtr := fun s =>
  match s.openFiles.insert f with
  | .ok (fp, files) => .ok (fp, { s with openFiles := files })
  | .error e => .error e

/-- The `FILE` that `fs_open` makes. -/
def openedFile (node : FsNode) (mode : Word) (s : Stat) : File where
  mode := mode
  node := node
  size := s.stSize
  pos := if mode &&& oAppend ≠ 0 then s.stSize else 0
  device := s.stRdev
  flags := s.stMode
  refcnt := 1

/-- `fs_open` -/
def fsOpen (node : FsNode) (mode : Word) : FsM δ FilePtr := do
  let s ← onBlk (fsStat drv node)
  let isDev := sIschr s.stMode || sIsblk s.stMode
  (if mode = oWronly ∧ isDev = false then onBlk (fsReset drv node) else pure ())
  let fp ← insertFile (openedFile node mode s)
  if isDev = true ∧ maxDevs ≤ (s.stRdev >>> 8).toNat then throw .wild
  else pure fp

/-- `k_open` -/
def kOpen (env : FsEnv) (name : CString) (mode : Word) : FsM δ (Option FilePtr) := do
  match ← onBlk (fsLookup drv env name.chars) with
  | (.noDir, _, _) => pure none
  | (.ok, _, file) => some <$> fsOpen drv file mode
  | (_, parent, file) =>
      if mode &&& oWronly ≠ 0 ∨ mode &&& oAppend ≠ 0 ∨ mode &&& oCreat ≠ 0 then
        let (_, _, file) ← onBlk (fsCreate drv env parent name.baseName sIfreg file)
        some <$> fsOpen drv file mode
      else pure none

/-- `k_mkdir`. The path must not be empty: the source looks at the character before its end. -/
def kMkdir (env : FsEnv) (path : CString) : FsM δ FsRv := onBlk do
  if path.chars = [] then throw .wild
  else
    let path := path.trimmed
    match ← fsLookup drv env path.chars with
    | (.ok, _, _) => pure .fileExists
    | (.noDir, _, _) => pure .noDir
    | (_, parent, dir) =>
        let (_, parent, dir) ← fsCreate drv env parent path.baseName sIfdir dir
        let _ ← fsWrite drv dir 0 31 (CString.dotName env).mem
        let _ ← fsWrite drv dir 31 1 fun _ => dir.idx
        let _ ← fsWrite drv dir 32 31 (CString.dotDotName env).mem
        let _ ← fsWrite drv dir 63 1 fun _ => parent.idx
        pure .ok

/-- `k_mknod`; `isChr` is `type == 'c'`. -/
def kMknod (env : FsEnv) (path : CString) (isChr : Bool) (major minor : Word) : FsM δ FsRv :=
  onBlk do
    match ← fsLookup drv env path.chars with
    | (.ok, _, _) => pure .fileExists
    | (.noDir, _, _) => pure .noDir
    | (_, parent, devNode) =>
        let type := if isChr then sIfchr else sIfblk
        let (_, _, devNode) ← fsCreate drv env parent path.baseName type devNode
        let b ← BlkM.bread drv devNode.dev devNode.idx
        let data ← BlkM.data b
        BlkM.setData b (data.put 1 ((major <<< 8) ||| (minor &&& 0xff)))
        BlkM.setModified b
        BlkM.bfree b
        pure .ok

/-- `*fd` -/
def getFile (fd : FilePtr) : FsM δ File := fun s => .ok (s.openFiles.el fd, s)

/-- Assign to `*fd`. -/
def setFile (fd : FilePtr) (f : File) : FsM δ Unit := fun s =>
  .ok ((), { s with openFiles := s.openFiles.assign fd f })

/-- The number of words `blkdev_read` and `blkdev_write` move. The sum is one of 16-bit numbers; if it
wraps, the copy leaves the block. -/
def blkdevSize (pos size : Nat) : Nat :=
  if 0x100 < (pos % 256 + size) % 2 ^ 16 then 0x100 - pos % 256 else size

/-- `blkdev_read` -/
def blkdevRead (fd : FilePtr) (size : Nat) : FsM δ (List Word) := do
  let f ← getFile fd
  let n := blkdevSize f.pos size
  let b ← onBlk (BlkM.bread drv f.device (BitVec.ofNat 16 (f.pos / 256)))
  if 256 < f.pos % 256 + n then throw .wild
  else
    let data ← onBlk (BlkM.data b)
    onBlk (BlkM.bfree b)
    setFile fd { f with pos := f.pos + n }
    pure (data.slice (f.pos % 256) n)

/-- `blkdev_write` -/
def blkdevWrite (fd : FilePtr) (buf : Nat → Word) (size : Nat) : FsM δ Nat := do
  let f ← getFile fd
  let n := blkdevSize f.pos size
  let b ← onBlk (BlkM.bread drv f.device (BitVec.ofNat 16 (f.pos / 256)))
  if 256 < f.pos % 256 + n then throw .wild
  else
    let data ← onBlk (BlkM.data b)
    onBlk (BlkM.setData b (data.blit (f.pos % 256) n buf))
    setFile fd { f with pos := f.pos + n }
    pure n

/-- `k_write` -/
def kWrite (env : FsEnv) (fd : FilePtr) (buf : Nat → Word) (size : Nat) : FsM δ Nat := do
  let f ← getFile fd
  if sIsblk f.flags then blkdevWrite drv fd buf size
  else if sIschr f.flags then
    if maxDevs ≤ (f.device >>> 8).toNat then throw .wild
    else pure (env.devs.write (f.device >>> 8) (f.device &&& 0xff) size)
  else
    let written ← onBlk (fsWrite drv f.node f.pos size buf)
    setFile fd { f with pos := f.pos + written }
    pure written

/-- `k_read` -/
def kRead (env : FsEnv) (fd : FilePtr) (size : Nat) : FsM δ (List Word) := do
  let f ← getFile fd
  if sIsblk f.flags then blkdevRead drv fd size
  else if sIschr f.flags then
    if f.device >>> 8 &&& 0xf0 ≠ 0 then pure []
    else if (f.device >>> 8).toNat < maxDevs ∧ env.devs.registered (f.device >>> 8) then
      pure (env.devs.read (f.device >>> 8) (f.device &&& 0xff) size)
    else pure []
  else
    -- `fd->size` is the size at `k_open`; the difference wraps once `fd->pos` has passed it
    let size := if f.size < (size + f.pos) % 2 ^ 32
      then (BitVec.ofNat 32 f.size - BitVec.ofNat 32 f.pos).toNat % 2 ^ 16 else size
    let words ← onBlk (fsRead drv f.node f.pos size)
    setFile fd { f with pos := f.pos + words.length }
    pure words

/-- `k_close`. There is no test of the major: outside of `devList` there is no handler to call. -/
def kClose (fd : FilePtr) : FsM δ Unit := do
  let f ← getFile fd
  setFile fd { f with refcnt := f.refcnt - 1 }
  if f.refcnt - 1 = 0 then fun s => .ok ((), { s with openFiles := s.openFiles.removeByElement fd })
  else pure ()

/-- `k_seek`: no further than the size. -/
def kSeek (fd : FilePtr) (pos : Nat) : FsM δ Unit := do
  let f ← getFile fd
  setFile fd { f with pos := if f.size < pos then f.size else pos }

/-! ### An empty filesystem -/

/-- The loop of `fs_mkfs` that clears blocks. -/
def clearBlocks (device : Word) : List Nat → BlkM δ Unit
  | [] => pure ()
  | i :: rest => do
      let b ← BlkM.bread drv device (BitVec.ofNat 16 i)
      BlkM.setData b BlockData.zero
      BlkM.setModified b
      BlkM.bfree b
      clearBlocks device rest

/-- `"RLFS filesystem"` -/
def superblockName : List Word :=
  [0x52, 0x4c, 0x46, 0x53, 0x20, 0x66, 0x69, 0x6c, 0x65, 0x73, 0x79, 0x73, 0x74, 0x65, 0x6d, 0]

/-- `fs_mkfs` -/
def fsMkfs (env : FsEnv) (device : Word) : BlkM δ Unit := do
  let b ← BlkM.bread drv device 0
  let data ← BlkM.data b
  BlkM.setData b (data.blit 0 16 fun i => superblockName.getD i 0)
  BlkM.setModified b
  BlkM.bfree b
  clearBlocks drv device (List.range' 1 34)
  let b ← BlkM.bread drv device 1
  let data ← BlkM.data b
  BlkM.setData b (((data.put 0 0xffff).put 1 0xffff).put 2 0x0007)
  BlkM.setModified b
  BlkM.bfree b
  let b ← BlkM.bread drv device 34
  BlkM.setData b ((BlockData.zero.put 0 sIfdir).put 1 64)
  BlkM.setModified b
  BlkM.bfree b
  let dir : FsNode := ⟨device, rootIdx⟩
  let _ ← fsWrite drv dir 0 31 (CString.dotName env).mem
  let _ ← fsWrite drv dir 31 1 fun _ => dir.idx
  let _ ← fsWrite drv dir 32 31 (CString.dotDotName env).mem
  let _ ← fsWrite drv dir 63 1 fun _ => dir.idx
  BlkM.blockSync drv

end RlCpu.Kernel
