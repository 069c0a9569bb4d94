/-
**The drivers of the kernel, and the length of a read (`tty.c`, `piper.c`, `sched.c`, `mm.c`, `cb.c`).**

`Io` is the kernel with what its drivers keep. `uart_buffer` and `pipes` are indexed by every number, as
the arrays are in the source: a minor number above theirs reaches what lies behind them in memory. What
the UARTs send out is not kept.

* `Io.kRead_length`: how many words `k_read` stores, for each kind of `FILE`.
* `Io.kRead_bounded_iff`: when these are no more than were asked for.
* `Io.ioRun_bounded`: the same for each `k_read` of any run.
-/

import RlCpu.Kernel.Devices
import RlCpu.Kernel.FsRuns
import RlCpu.Kernel.Sched

namespace RlCpu.Kernel

open RlCpu.Lib

variable {δ : Type}

/-! ### Circular buffers -/

/-- `struct circular_buffer` -/
structure CircularBuffer where
  r : Word
  w : Word
  capacity : Word
  size : Word
  data : Word → Word

namespace CircularBuffer

/-- `cb_create_static`, on an arena of zeros. -/
def create (capacity : Word) : CircularBuffer := ⟨0, 0, capacity, 0, fun _ => 0⟩

/-- `cb_clear` -/
def clear (cb : CircularBuffer) : CircularBuffer := { cb with size := 0, w := 0, r := 0 }

/-- `cb_pop` -/
def pop (cb : CircularBuffer) : Word × CircularBuffer :=
  if cb.size ≠ 0 then
    (cb.data cb.r, { cb with r := if cb.capacity ≤ cb.r + 1 then 0 else cb.r + 1, size := cb.size - 1 })
  else (0, cb)

/-- `cb_push` -/
def push (cb : CircularBuffer) (val : Word) : CircularBuffer :=
  let w := if cb.capacity ≤ cb.w + 1 then 0 else cb.w + 1
  let cb := { cb with data := Function.update cb.data cb.w val, w := w }
  if cb.size < cb.capacity then { cb with size := cb.size + 1 } else { cb with r := w }

/-- The loop of `piper_read`. -/
def popTimes : Nat → CircularBuffer → List Word × CircularBuffer
  | 0, cb => ([], cb)
  | n + 1, cb => (cb.pop.1 :: (popTimes n cb.pop.2).1, (popTimes n cb.pop.2).2)

/-- The loop of `tty_read`. -/
def popWhile : Nat → CircularBuffer → List Word × CircularBuffer
  | 0, cb => ([], cb)
  | n + 1, cb =>
      if cb.size = 0 then ([], cb)
      else (cb.pop.1 :: (popWhile n cb.pop.2).1, (popWhile n cb.pop.2).2)

/-- The loop of `piper_write`. -/
def pushMany : Nat → (Nat → Word) → CircularBuffer → CircularBuffer
  | 0, _, cb => cb
  | n + 1, buf, cb => pushMany n (fun i => buf (i + 1)) (cb.push (buf 0))

theorem pop_size {cb : CircularBuffer} (some : cb.size ≠ 0) :
    cb.pop.2.size.toNat = cb.size.toNat - 1 := by
  unfold pop
  rw [if_pos some]
  have positive : cb.size.toNat ≠ 0 := fun zero => some (BitVec.eq_of_toNat_eq zero)
  show (cb.size - 1).toNat = _
  bv_omega

theorem popTimes_length : ∀ (n : Nat) (cb : CircularBuffer), (popTimes n cb).1.length = n
  | 0, _ => rfl
  | n + 1, cb => congrArg (· + 1) (popTimes_length n cb.pop.2)

/-- The loop stops when the buffer is empty. -/
theorem popWhile_length : ∀ (n : Nat) (cb : CircularBuffer),
    (popWhile n cb).1.length = min n cb.size.toNat := by
  intro n
  induction n with
  | zero => exact fun cb => (Nat.zero_min _).symm
  | succ n ih =>
    intro cb
    unfold popWhile
    by_cases empty : cb.size = 0
    · rw [if_pos empty, empty]
      exact (Nat.min_zero _).symm
    · have positive : cb.size.toNat ≠ 0 := fun zero => empty (BitVec.eq_of_toNat_eq zero)
      rw [if_neg empty, List.length_cons, ih, pop_size empty]
      omega

end CircularBuffer

/-! ### The state -/

/-- `PIPE_MAX_LENGTH` -/
abbrev pipeMaxLength : Nat := 256
/-- `WAITQ_LENGTH` -/
abbrev waitqLength : Nat := 15

/-- `struct pipefile`; the buffer is in `cb`. -/
structure PipeFile where
  used : Bool
  readClosed : Bool
  writeClosed : Bool
  cb : CircularBuffer
  openedAs : Option FilePtr

/-- The ends of a pipe after one is closed, and the pipe once both are. -/
def PipeFile.closed (pipe : PipeFile) (mode : Word) : PipeFile :=
  let pipe := if mode = 0 then { pipe with readClosed := true }
    else if mode = oWronly then { pipe with writeClosed := true } else pipe
  if pipe.readClosed ∧ pipe.writeClosed then
    { pipe with
      used := false
      cb := pipe.cb.clear
      readClosed := false
      writeClosed := false }
  else pipe

/-- `struct waitqEntry`, with the four parameters of `WAITQ_TYPE_FILE`, the only type that is added;
`none` is `WAITQ_TYPE_NONE`. -/
structure WaitqEntry where
  trigger : Word
  pid : Word
  scallStruct : Word
  fd : FilePtr
  buf : Word
  size : Word
  isWrite : Bool

/-- The kernel with its drivers. -/
structure Io (δ : Type) where
  kernel : KernelState δ
  /-- `procs[i].cmd` -/
  cmd : Nat → Nat → Word
  uartBuffer : Word → CircularBuffer
  ttyOpenedAs : Word → Option FilePtr
  pipes : Word → PipeFile
  waitq : Fin waitqLength → Option WaitqEntry
  waitqPendingNotifications : CircularBuffer
  blockRequest : Word
  timeslice : Word
  iobuf : Nat → Word
  systemInterruptStack : InterruptFrame
  /-- `loop_devs`: the node of the device, and the file behind it. -/
  loopDevs : Word → FsNode × FsNode

/-- How a call that reaches the drivers can fail to return. -/
inductive IoFault
  /-- A fault below the drivers. -/
  | kernel (e : Fault)
  /-- A call of a null pointer. -/
  | null
  /-- An access outside `iobuf`. -/
  | overrun
  deriving DecidableEq, Repr

/-- The fault is not of the drivers. -/
def IoFault.Below (e : IoFault) : Prop := ∃ f, e = .kernel f

/-- Kernel code over the drivers. -/
abbrev IoM (δ : Type) := StateT (Io δ) (Except IoFault)

/-- Code that uses the filesystem only. -/
def onFs {α : Type} (p : FsM δ α) : IoM δ α := fun s =>
  match p s.kernel.fs with
  | .ok (x, t) => .ok (x, { s with kernel := { s.kernel with fs := t } })
  | .error e => .error (.kernel e)

/-- The number of a state, as `/dev/proc` shows it. -/
def ProcState.code : ProcState → Word
  | .none => 0
  | .run => 1
  | .sleep => 2
  | .zombie => 3
  | .kworker => 4
  | .new => 5
  | .construct => 6
  | .blocked => 7

namespace Io

/-! ### Drivers -/

/-- `waitqNotify` -/
def waitqNotify (what : Word) : IoM δ Unit := fun s =>
  if s.waitqPendingNotifications.size < s.waitqPendingNotifications.capacity then
    .ok ((), { s with waitqPendingNotifications := s.waitqPendingNotifications.push what })
  else .error (.kernel .panic)

/-- `blockRequest = request` -/
def setBlockRequest (request : Word) : IoM δ Unit := fun s => .ok ((), { s with blockRequest := request })

/-- `waitqNotify((size_t)(openedAs->node.idx))` -/
def notifyOpened (openedAs : Option FilePtr) : IoM δ Unit :=
  match openedAs with
  | some fd => do
      let f ← onFs (getFile fd)
      waitqNotify f.node.idx
  | none => throw (.kernel .wild)

/-- `uart_interrupt` and `uart2_interrupt`, with the words that have arrived. -/
def uartInterrupt (minor : Word) (arrived : List Word) : IoM δ Unit := do
  modify fun s =>
    { s with uartBuffer := Function.update s.uartBuffer minor (arrived.foldl .push (s.uartBuffer minor)) }
  if arrived ≠ [] then notifyOpened ((← get).ttyOpenedAs minor)

/-- `tty_read` -/
def ttyRead (minor : Word) (n : Nat) : IoM δ (List Word) := do
  let s ← get
  let (words, cb) := (s.uartBuffer minor).popWhile n
  set { s with uartBuffer := Function.update s.uartBuffer minor cb }
  (if words = [] then setBlockRequest 1 else pure ())
  pure words

/-- The entry of `/dev/proc` for a process. -/
def procEntry (s : Io δ) (i : Nat) : List Word :=
  if (s.kernel.procs i).state ≠ .none then
    (s.kernel.procs i).pid :: (s.kernel.procs i).state.code :: ((List.range 31).map (s.cmd i) ++ [0])
  else []

/-- `proc_file_read`; the size asked for is not looked at. -/
def procFileRead : IoM δ (List Word) := do
  let s ← get
  pure ((List.range maxProc).flatMap s.procEntry ++ [0])

/-- `piper_read` -/
def piperRead (p : Word) (n : Nat) : IoM δ (List Word) := do
  let cb := (← get).pipes p |>.cb
  (if cb.size = cb.capacity then do notifyOpened ((← get).pipes p).openedAs else pure ())
  let s ← get
  let (words, cb) := cb.popTimes (min n cb.size.toNat)
  set { s with pipes := Function.update s.pipes p { s.pipes p with cb := cb } }
  (if words = [] ∧ (s.pipes p).writeClosed = false then setBlockRequest 1 else pure ())
  pure words

/-- A handler called by `k_read`. The handlers of the other calls are not in the `read` fields. -/
def readHandler (minor : Word) (n : Nat) : BootHandler → IoM δ (List Word)
  | .ttyRead => ttyRead minor n
  | .procFileRead => procFileRead
  | .piperRead => piperRead minor n
  | .schedFileRead | .nullFileRead => pure []
  | .zeroFileRead => pure (List.replicate n 0)
  | _ => throw (.kernel .wild)

/-- `piper_write` -/
def piperWrite (p : Word) (buf : Nat → Word) (n : Nat) : IoM δ Nat := do
  let pipe := (← get).pipes p
  if pipe.readClosed then do
    setBlockRequest 2
    pure 0
  else do
    (if pipe.cb.size = 0 then do notifyOpened ((← get).pipes p).openedAs else pure ())
    let s ← get
    let szWrite := min n (pipe.cb.capacity - pipe.cb.size).toNat
    set { s with pipes := Function.update s.pipes p { s.pipes p with cb := pipe.cb.pushMany szWrite buf } }
    (if szWrite = 0 then setBlockRequest 1 else pure ())
    pure szWrite

/-- A handler called by `k_write`. -/
def writeHandler (minor : Word) (buf : Nat → Word) (n : Nat) : BootHandler → IoM δ Nat
  | .ttyWrite | .nullFileWrite | .zeroFileWrite => pure n
  | .procFileWrite => pure 0
  | .piperWrite => piperWrite minor buf n
  | .schedFileWrite => do
      modify fun s => { s with timeslice := buf 0 }
      pure n
  | _ => throw (.kernel .wild)

/-- A handler called by `k_open`. -/
def openHandler (minor : Word) (fp : FilePtr) : BootHandler → IoM δ Unit
  | .ttyOpen => modify fun s => { s with ttyOpenedAs := Function.update s.ttyOpenedAs minor (some fp) }
  | .piperOpen => modify fun s =>
      { s with pipes := Function.update s.pipes minor { s.pipes minor with used := true, openedAs := some fp } }
  | _ => pure ()

/-- `piper_close` -/
def piperClose (p mode : Word) : IoM δ Unit :=
  modify fun s => { s with pipes := Function.update s.pipes p ((s.pipes p).closed mode) }

/-! ### `k_read` and `k_write` -/

section Calls

variable (drv : BlkDriver δ) (behind : BlockPtr → Nat → Word) (env : FsEnv)

/-- `blkdev_read`, also where the copy leaves the block: `behind` is what follows the data of a cache slot
in memory. -/
def blkdevRead (fd : FilePtr) (size : Nat) : FsM δ (List Word) := do
  let f ← getFile fd
  let n := blkdevSize f.pos size
  let b ← onBlk (BlkM.bread drv f.device (BitVec.ofNat 16 (f.pos / 256)))
  let data ← onBlk (BlkM.data b)
  onBlk (BlkM.bfree b)
  setFile fd { f with pos := f.pos + n }
  pure ((List.range n).map fun i =>
    if f.pos % 256 + i < 256 then data.word (f.pos % 256 + i) else behind b (f.pos % 256 + i - 256))

/-- `k_read`: the words stored from the start of the buffer on. -/
def kRead (fd : FilePtr) (size : Nat) : IoM δ (List Word) := do
  let f ← onFs (getFile fd)
  match DevOp.readOutcome bootTables f.flags f.device with
  | .calls h => readHandler (f.device &&& 0xff) size h
  | .block => onFs (blkdevRead drv behind fd size)
  | .served => onFs (Kernel.kRead drv env fd size)
  | .failed => pure []
  | .null => throw .null
  | .outside => throw (.kernel .wild)
  | .noDriver => throw (.kernel .panic)

/-- `k_write` -/
def kWrite (fd : FilePtr) (buf : Nat → Word) (size : Nat) : IoM δ Nat := do
  let f ← onFs (getFile fd)
  match DevOp.writeOutcome bootTables f.flags f.device with
  | .calls h => writeHandler (f.device &&& 0xff) buf size h
  | .block => onFs (Kernel.blkdevWrite drv fd buf size)
  | .served => onFs (Kernel.kWrite drv env fd buf size)
  | .failed => pure 0
  | .null => throw .null
  | .outside => throw (.kernel .wild)
  | .noDriver => throw (.kernel .panic)

/-- `k_open` -/
def kOpen (name : CString) (mode : Word) : IoM δ (Option FilePtr) := do
  match ← onFs (Kernel.kOpen drv env name mode) with
  | none => pure none
  | some fp => do
      let f ← onFs (getFile fp)
      match DevOp.openOutcome bootTables f.flags f.device with
      | .calls h => openHandler (f.device &&& 0xff) fp h
      | _ => pure ()
      pure (some fp)

/-- `k_close` -/
def kClose (fd : FilePtr) : IoM δ Unit := do
  let f ← onFs (getFile fd)
  onFs (Kernel.kClose fd)
  if f.refcnt - 1 = 0 then
    match DevOp.closeOutcome bootTables f.flags f.device with
    | .calls .piperClose => piperClose (f.device &&& 0xff) f.mode
    | _ => pure ()

/-- `loop_ioctl`; it has no `return`, and its result is what is left in the register. -/
def loopIoctl (left : Word) (minor request : Word) (buf : List Word) (node : FsNode) : IoM δ Word :=
  if request = 0 then
    if 3 < minor.toNat then throw (.kernel .panic)
    else if 0 ∈ buf then do
      let (_, _, file) ← onFs (onBlk (fsLookup drv env (buf.takeWhile (· ≠ 0))))
      modify fun s => { s with loopDevs := Function.update s.loopDevs minor (node, file) }
      pure left
    else throw (.kernel .wild)
  else pure left

/-- `k_ioctl`. Every handler leaves 0 in `*sz`. -/
def kIoctl (left : Word) (fd : FilePtr) (request : Word) (buf : List Word) : IoM δ Word := do
  let f ← onFs (getFile fd)
  match DevOp.ioctlOutcome bootTables f.flags f.device with
  | .calls .ttyIoctl => pure 0
  | .calls .loopIoctl => loopIoctl drv env left (f.device &&& 0xff) request buf f.node
  | .outside => throw (.kernel .wild)
  | _ => pure 0xffff

/-- `k_seek` -/
def kSeek (fd : FilePtr) (pos : Nat) : IoM δ Unit := onFs do
  let f ← getFile fd
  setFile fd { f with pos := if f.size < pos then f.size else pos }

end Calls

end Io

/-! ### How many words a read stores -/

/-- The size in the node that a read finds on the disk. -/
def nodeSize (drv : BlkDriver δ) (s : FsState δ) (node : FsNode) : Nat :=
  match Kernel.bread drv (node.dev, node.idx) s.blk with
  | some (b, t) => (t.blockCache b).data.size
  | none => 0

/-- The size `fs_read` is called with. -/
def clippedSize (fileSize pos size : Nat) : Nat :=
  if fileSize < (size + pos) % 2 ^ 32 then
    (BitVec.ofNat 32 fileSize - BitVec.ofNat 32 pos).toNat % 2 ^ 16
  else size

/-- The words that `fs_read` reads from a file of `stSize` words. -/
def fsReadLength (stSize offset size : Nat) : Nat :=
  if stSize < offset then 0
  else if stSize < (offset + size) % 2 ^ 32 then (stSize - offset) % 2 ^ 16 else size

section Lengths

variable {drv : BlkDriver δ}

theorem slice_length (b : BlockData) (start n : Nat) : (b.slice start n).length = n := by
  unfold BlockData.slice
  rw [List.length_map, List.length_range]

/-- The loop of `fs_read` reads what it is asked for. By induction on what is left. -/
theorem fsReadLoop_length (device : Word) (nodeBlock : BlockPtr) : ∀ (size offset : Nat) (buf : List Word),
    Yields (fsReadLoop drv device nodeBlock offset size buf) fun words =>
      words.length = buf.length + size := by
  intro size
  induction size using Nat.strongRecOn with
  | ind size ih =>
    intro offset buf
    rw [fsReadLoop]
    split
    case isTrue none =>
      subst none
      exact Yields.of_pure rfl
    case isFalse some =>
      refine Yields.of_bind fun cBlock => Yields.of_bind fun currentBlock => Yields.of_bind fun data =>
        Yields.of_bind fun _ => ?_
      have now : 0 < min size (256 - offset % 256) := by
        have := Nat.mod_lt offset (show 0 < 256 by decide)
        omega
      intro s words t read
      rw [ih _ (by omega) _ _ s words t read, List.length_append, slice_length]
      omega

/-- `fs_read` from a state. -/
theorem fsRead_length {node : FsNode} {offset size : Nat} {s : FsState δ} {t : BlkState δ}
    {words : List Word} (read : fsRead drv node offset size s.blk = .ok (words, t)) :
    words.length = fsReadLength (nodeSize drv s node) offset size := by
  unfold fsRead at read
  obtain ⟨⟨b, s'⟩, found, read⟩ := bind_ok read
  have here : Kernel.bread drv (node.dev, node.idx) s.blk = some (b, s') := by
    unfold BlkM.bread at found
    split at found
    case h_1 v same => exact same.trans (congrArg some (Except.ok.inj found))
    case h_2 => cases found
  have st : nodeSize drv s node = (s'.blockCache b).data.size := by
    unfold nodeSize
    rw [here]
  rw [st]
  change (if (s'.blockCache b).data.size < offset then _ else _ : BlkM δ (List Word)) s' = _ at read
  unfold fsReadLength
  split at read
  case isTrue beyond =>
    rw [if_pos beyond]
    obtain ⟨rfl, -⟩ := Prod.mk.inj (Except.ok.inj read)
    rfl
  case isFalse inside =>
    rw [if_neg inside]
    obtain ⟨⟨buf, s''⟩, loop, read⟩ := bind_ok read
    change Except.ok (buf, Kernel.bfree b s'') = _ at read
    obtain ⟨rfl, -⟩ := Prod.mk.inj (Except.ok.inj read)
    have count := fsReadLoop_length _ _ _ _ _ _ _ _ loop
    rwa [List.length_nil, Nat.zero_add] at count

/-- `blkdev_read` and `blkdev_write` move no more than they are asked to. -/
theorem blkdevSize_le {pos size : Nat} (small : size < 2 ^ 16) : blkdevSize pos size ≤ size := by
  unfold blkdevSize
  have := Nat.mod_lt pos (show 0 < 256 by decide)
  split <;> omega

end Lengths

namespace Io

/-- The live entries of the process table. -/
def liveProcs (s : Io δ) : Nat := ((List.range maxProc).filter fun i => (s.kernel.procs i).state ≠ .none).length

section Lengths

variable {drv : BlkDriver δ} {behind : BlockPtr → Nat → Word} {env : FsEnv} {s t : Io δ}
  {words : List Word}

/-- A live process takes 34 words. -/
theorem procEntry_length (s : Io δ) (i : Nat) :
    (s.procEntry i).length = if (s.kernel.procs i).state ≠ .none then 34 else 0 := by
  unfold procEntry
  split
  · rw [List.length_cons, List.length_cons, List.length_append, List.length_map, List.length_range]
    rfl
  · rfl

theorem procEntries_length (s : Io δ) (l : List Nat) : (l.flatMap s.procEntry).length =
    34 * (l.filter fun i => (s.kernel.procs i).state ≠ .none).length := by
  induction l with
  | nil => rfl
  | cons i l ih =>
    rw [List.flatMap_cons, List.length_append, ih, procEntry_length, List.filter_cons]
    by_cases live : (s.kernel.procs i).state = .none
    · rw [if_neg (not_not_intro live), if_neg (by simpa using live), Nat.zero_add]
    · rw [if_pos live, if_pos (decide_eq_true live), List.length_cons, Nat.mul_succ, Nat.add_comm]

theorem ttyRead_length {minor : Word} {n : Nat} (read : ttyRead minor n s = .ok (words, t)) :
    words.length = min n (s.uartBuffer minor).size.toNat := by
  have result : words = ((s.uartBuffer minor).popWhile n).1 := by
    unfold ttyRead at read
    obtain ⟨⟨_, s'⟩, -, read⟩ := bind_ok read
    obtain ⟨rfl, -⟩ := Prod.mk.inj (Except.ok.inj read)
    rfl
  rw [result, CircularBuffer.popWhile_length]

theorem piperRead_length {p : Word} {n : Nat} (read : piperRead p n s = .ok (words, t)) :
    words.length = min n (s.pipes p).cb.size.toNat := by
  have result : words = ((s.pipes p).cb.popTimes (min n (s.pipes p).cb.size.toNat)).1 := by
    unfold piperRead at read
    obtain ⟨⟨_, s₁⟩, -, read⟩ := bind_ok read
    obtain ⟨⟨_, s₂⟩, -, read⟩ := bind_ok read
    obtain ⟨rfl, -⟩ := Prod.mk.inj (Except.ok.inj read)
    rfl
  rw [result, CircularBuffer.popTimes_length]

/-- How many words a handler stores. -/
def handlerLength (s : Io δ) (minor : Word) (n : Nat) : BootHandler → Nat
  | .ttyRead => min n (s.uartBuffer minor).size.toNat
  | .procFileRead => 34 * s.liveProcs + 1
  | .piperRead => min n (s.pipes minor).cb.size.toNat
  | .zeroFileRead => n
  | _ => 0

theorem readHandler_length {minor : Word} {n : Nat} {h : BootHandler}
    (read : readHandler minor n h s = .ok (words, t)) : words.length = s.handlerLength minor n h := by
  cases h with
  | ttyRead => exact ttyRead_length read
  | procFileRead =>
    obtain ⟨rfl, -⟩ := Prod.mk.inj (Except.ok.inj read)
    rw [List.length_append, procEntries_length]
    rfl
  | piperRead => exact piperRead_length read
  | schedFileRead | nullFileRead =>
    obtain ⟨rfl, -⟩ := Prod.mk.inj (Except.ok.inj read)
    rfl
  | zeroFileRead =>
    obtain ⟨rfl, -⟩ := Prod.mk.inj (Except.ok.inj read)
    exact List.length_replicate
  | _ => cases read

end Lengths

/-! ### `k_read` -/

/-- `*fd` -/
def file (s : Io δ) (fd : FilePtr) : File := s.kernel.fs.openFiles.el fd

/-- What `k_read` does about the device of a `FILE`. -/
def readKind (s : Io δ) (fd : FilePtr) : Outcome BootHandler :=
  DevOp.readOutcome bootTables (s.file fd).flags (s.file fd).device

/-- Without a device, the file is in the filesystem. -/
theorem readOutcome_served {η : Type} {tables : DevTables η} {flags device : Word}
    (kind : DevOp.readOutcome tables flags device = .served) : sIsblk flags = false ∧ sIschr flags = false := by
  unfold DevOp.readOutcome DevOp.blkdev DevOp.index DevOp.callOr at kind
  cases blk : sIsblk flags with
  | true =>
    rw [blk, if_pos rfl] at kind
    split at kind <;> cases kind
  | false =>
    refine ⟨rfl, ?_⟩
    cases chr : sIschr flags with
    | false => rfl
    | true =>
      rw [blk, if_neg Bool.false_ne_true, chr, if_pos rfl] at kind
      split at kind
      · split at kind
        · split at kind <;> cases kind
        · cases kind
      · split at kind
        · split at kind
          case h_1 =>
            dsimp only at kind
            split at kind
            · split at kind <;> cases kind
            · cases kind
          case h_2 => cases kind
        · cases kind

/-- How many words `k_read` stores. -/
def readLength (drv : BlkDriver δ) (s : Io δ) (fd : FilePtr) (size : Nat) : Nat :=
  match s.readKind fd with
  | .calls h => s.handlerLength ((s.file fd).device &&& 0xff) size h
  | .block => blkdevSize (s.file fd).pos size
  | .served => fsReadLength (nodeSize drv s.kernel.fs (s.file fd).node) (s.file fd).pos
      (clippedSize (s.file fd).size (s.file fd).pos size)
  | _ => 0

section Read

variable {drv : BlkDriver δ} {behind : BlockPtr → Nat → Word} {env : FsEnv} {s t : Io δ}
  {words : List Word} {fd : FilePtr} {size : Nat}

theorem onFs_ok {α : Type} {p : FsM δ α} {x : α} (ran : onFs p s = .ok (x, t)) :
    ∃ fs, p s.kernel.fs = .ok (x, fs) ∧ t = { s with kernel := { s.kernel with fs := fs } } := by
  unfold onFs at ran
  split at ran
  case h_1 y fs here =>
    obtain ⟨rfl, rfl⟩ := Prod.mk.inj (Except.ok.inj ran)
    exact ⟨fs, here, rfl⟩
  case h_2 => cases ran

theorem onBlk_ok {α : Type} {p : BlkM δ α} {x : α} {s t : FsState δ} (ran : onBlk p s = .ok (x, t)) :
    ∃ blk, p s.blk = .ok (x, blk) ∧ t = { s with blk := blk } := by
  unfold onBlk at ran
  split at ran
  case h_1 y blk here =>
    obtain ⟨rfl, rfl⟩ := Prod.mk.inj (Except.ok.inj ran)
    exact ⟨blk, here, rfl⟩
  case h_2 => cases ran

theorem blkdevRead_length {s t : FsState δ} (read : blkdevRead drv behind fd size s = .ok (words, t)) :
    words.length = blkdevSize (s.openFiles.el fd).pos size := by
  unfold blkdevRead at read
  rw [bind_run (show getFile fd s = .ok (s.openFiles.el fd, s) from rfl)] at read
  obtain ⟨b, s₁, -, read⟩ := run_ok read
  obtain ⟨data, s₂, -, read⟩ := run_ok read
  obtain ⟨-, s₃, -, read⟩ := run_ok read
  obtain ⟨rfl, -⟩ := Prod.mk.inj (Except.ok.inj read)
  rw [List.length_map, List.length_range]

/-- `k_read` of a regular file or a directory. -/
theorem kRead_served {s t : FsState δ} (notBlk : sIsblk (s.openFiles.el fd).flags = false)
    (notChr : sIschr (s.openFiles.el fd).flags = false)
    (read : Kernel.kRead drv env fd size s = .ok (words, t)) :
    words.length = fsReadLength (nodeSize drv s (s.openFiles.el fd).node) (s.openFiles.el fd).pos
      (clippedSize (s.openFiles.el fd).size (s.openFiles.el fd).pos size) := by
  unfold Kernel.kRead at read
  rw [bind_run (show getFile fd s = .ok (s.openFiles.el fd, s) from rfl), notBlk, notChr,
    if_neg Bool.false_ne_true, if_neg Bool.false_ne_true] at read
  obtain ⟨buf, s₁, fetched, read⟩ := run_ok read
  obtain ⟨blk, fetched, -⟩ := onBlk_ok fetched
  obtain ⟨rfl, -⟩ := Prod.mk.inj (Except.ok.inj read)
  exact fsRead_length fetched

/-- The dispatch of `k_read`. -/
theorem kRead_eq : kRead drv behind env fd size s =
    (match s.readKind fd with
      | .calls h => readHandler ((s.file fd).device &&& 0xff) size h
      | .block => onFs (blkdevRead drv behind fd size)
      | .served => onFs (Kernel.kRead drv env fd size)
      | .failed => pure []
      | .null => throw .null
      | .outside => throw (.kernel .wild)
      | .noDriver => throw (.kernel .panic) : IoM δ (List Word)) s := rfl

/-- **The length of a read.** -/
theorem kRead_length (read : kRead drv behind env fd size s = .ok (words, t)) :
    words.length = s.readLength drv fd size := by
  rw [kRead_eq] at read
  unfold readLength
  cases kind : s.readKind fd with
  | calls h =>
    rw [kind] at read
    exact readHandler_length read
  | block =>
    rw [kind] at read
    obtain ⟨fs, read, -⟩ := onFs_ok read
    exact blkdevRead_length read
  | served =>
    rw [kind] at read
    obtain ⟨fs, read, -⟩ := onFs_ok read
    obtain ⟨notBlk, notChr⟩ := readOutcome_served kind
    exact kRead_served notBlk notChr read
  | failed =>
    rw [kind] at read
    obtain ⟨rfl, -⟩ := Prod.mk.inj (Except.ok.inj read)
    rfl
  | null | outside | noDriver =>
    rw [kind] at read
    cases read

theorem onFs_raises {α : Type} {p : FsM δ α} : Raises (onFs p) IoFault.Below := by
  intro s e faults
  unfold onFs at faults
  split at faults
  case h_1 => cases faults
  case h_2 =>
    obtain rfl := Except.error.inj faults
    exact ⟨_, rfl⟩

theorem notifyOpened_raises (openedAs : Option FilePtr) :
    Raises (notifyOpened openedAs : IoM δ Unit) IoFault.Below := by
  cases openedAs with
  | none => exact Raises.of_throw ⟨_, rfl⟩
  | some fd =>
    refine Raises.of_bind onFs_raises fun f s e faults => ?_
    unfold waitqNotify at faults
    split at faults
    · cases faults
    · obtain rfl := Except.error.inj faults
      exact ⟨_, rfl⟩

/-- No driver calls a null pointer. -/
theorem readHandler_raises {minor : Word} {n : Nat} (h : BootHandler) :
    Raises (readHandler minor n h : IoM δ (List Word)) IoFault.Below := by
  cases h with
  | ttyRead =>
    intro s e faults
    unfold readHandler ttyRead at faults
    rcases run_error faults with here | ⟨x, s', -, faults⟩
    · cases here
    · dsimp only at faults
      rcases run_error faults with here | ⟨x, s', -, faults⟩
      · cases here
      · split at faults <;> cases faults
  | piperRead =>
    refine Raises.of_bind (fun _ _ faults => by cases faults) fun s => Raises.of_bind ?_ fun _ => ?_
    · split
      · exact Raises.of_bind (fun _ _ faults => by cases faults) fun s => notifyOpened_raises _
      · exact Raises.of_pure
    · refine Raises.of_bind (fun _ _ faults => by cases faults) fun s => ?_
      refine Raises.of_bind (fun _ _ faults => by cases faults) fun _ => Raises.of_bind ?_ fun _ => Raises.of_pure
      split
      · exact fun _ _ faults => by cases faults
      · exact Raises.of_pure
  | procFileRead | schedFileRead | nullFileRead | zeroFileRead => exact fun _ _ faults => by cases faults
  | _ => exact Raises.of_throw ⟨_, rfl⟩

/-- A read stops in a fault below the drivers, or where the table has a null pointer. -/
theorem kRead_raises {e : IoFault} (faults : kRead drv behind env fd size s = .error e) :
    e.Below ∨ (e = .null ∧ s.readKind fd = .null) := by
  rw [kRead_eq] at faults
  cases kind : s.readKind fd with
  | null =>
    rw [kind] at faults
    exact Or.inr ⟨(Except.error.inj faults).symm, rfl⟩
  | calls h =>
    rw [kind] at faults
    exact Or.inl (readHandler_raises h s e faults)
  | block | served =>
    rw [kind] at faults
    exact Or.inl (onFs_raises s e faults)
  | failed =>
    rw [kind] at faults
    cases faults
  | outside | noDriver =>
    rw [kind] at faults
    exact Or.inl ⟨_, (Except.error.inj faults).symm⟩

theorem kRead_null (null : s.readKind fd = .null) : kRead drv behind env fd size s = .error .null := by
  rw [kRead_eq, null]
  rfl

end Read

/-! ### The bound -/

/-- **What is asked of a read**: no more words than asked for, and only a handler that is there. -/
def ReadBounded (size : Nat) : Except IoFault (List Word) → Prop
  | .ok words => words.length ≤ size
  | .error e => e ≠ .null

/-- **When the clipping of a regular file holds.** -/
def RegularFits (fileSize pos stSize size : Nat) : Prop :=
  pos ≤ fileSize ∨ (size + pos) % 2 ^ 32 ≤ fileSize ∨ stSize < pos ∨
    (2 ^ 32 + fileSize - pos) % 2 ^ 16 ≤ size ∨
    (stSize - pos ≤ size ∧ pos + (2 ^ 32 + fileSize - pos) % 2 ^ 16 < 2 ^ 32)

/-- **When a read is bounded.** -/
def ReadFits (drv : BlkDriver δ) (s : Io δ) (fd : FilePtr) (size : Nat) : Prop :=
  match s.readKind fd with
  | .calls .procFileRead => 34 * s.liveProcs + 1 ≤ size
  | .served => RegularFits (s.file fd).size (s.file fd).pos (nodeSize drv s.kernel.fs (s.file fd).node) size
  | .null => False
  | _ => True

/-- The wrapped difference. -/
theorem clippedSize_of_lt {fileSize pos size : Nat} (clipped : fileSize < (size + pos) % 2 ^ 32)
    (low : pos < 2 ^ 32) : clippedSize fileSize pos size = (2 ^ 32 + fileSize - pos) % 2 ^ 16 := by
  have := Nat.mod_lt (size + pos) (show 0 < 2 ^ 32 by decide)
  unfold clippedSize
  rw [if_pos clipped, BitVec.toNat_sub, BitVec.toNat_ofNat, BitVec.toNat_ofNat]
  omega

/-- **The clipping of a regular file.** -/
theorem regularLength_le {fileSize pos stSize size : Nat} (small : size < 2 ^ 16) (st : stSize < 2 ^ 32) :
    fsReadLength stSize pos (clippedSize fileSize pos size) ≤ size ↔ RegularFits fileSize pos stSize size := by
  unfold fsReadLength RegularFits
  by_cases beyond : stSize < pos
  · rw [if_pos beyond]
    exact ⟨fun _ => Or.inr (Or.inr (Or.inl beyond)), fun _ => Nat.zero_le _⟩
  · rw [if_neg beyond]
    by_cases clipped : fileSize < (size + pos) % 2 ^ 32
    · rw [clippedSize_of_lt clipped (by omega)]
      have := Nat.mod_lt (2 ^ 32 + fileSize - pos) (show 0 < 2 ^ 16 by decide)
      split <;> omega
    · have whole : clippedSize fileSize pos size = size := if_neg clipped
      rw [whole]
      refine ⟨fun _ => Or.inr (Or.inl (Nat.le_of_not_lt clipped)), fun _ => ?_⟩
      split <;> omega

theorem nodeSize_lt (drv : BlkDriver δ) (s : FsState δ) (node : FsNode) : nodeSize drv s node < 2 ^ 32 := by
  unfold nodeSize BlockData.size
  split
  case h_1 b t _ =>
    have low := ((t.blockCache b).data.word 1).isLt
    have high := ((t.blockCache b).data.word 2).isLt
    omega
  case h_2 => decide

section Bound

variable {drv : BlkDriver δ} {behind : BlockPtr → Nat → Word} {env : FsEnv} {s : Io δ} {fd : FilePtr}

/-- The handlers, apart from that of `/dev/proc`, store what they are asked to. -/
theorem handlerLength_le {minor : Word} {n : Nat} (h : BootHandler) (other : h ≠ .procFileRead) :
    s.handlerLength minor n h ≤ n := by
  cases h with
  | procFileRead => exact absurd rfl other
  | ttyRead | piperRead => exact Nat.min_le_left _ _
  | zeroFileRead => exact le_rfl
  | _ => exact Nat.zero_le _

/-- The closed form of the bound. -/
theorem readLength_le (size : Word) (there : s.readKind fd ≠ .null) :
    s.readLength drv fd size.toNat ≤ size.toNat ↔ ReadFits drv s fd size.toNat := by
  unfold readLength ReadFits
  cases kind : s.readKind fd with
  | calls h =>
    by_cases proc : h = .procFileRead
    · subst proc
      exact Iff.rfl
    · refine iff_of_true (handlerLength_le h proc) ?_
      split
      case h_1 same => exact absurd (Outcome.calls.inj same) proc
      case h_2 clash => cases clash
      case h_3 clash => cases clash
      case h_4 => trivial
  | block => exact iff_of_true (blkdevSize_le size.isLt) trivial
  | served => exact regularLength_le size.isLt (nodeSize_lt drv _ _)
  | null => exact absurd kind there
  | failed | outside | noDriver => exact iff_of_true (Nat.zero_le _) trivial

/-- **The bound of a read**, from every state in which it comes to an end. -/
theorem kRead_bounded_iff (size : Word) {r : Except IoFault (List Word × Io δ)}
    (run : kRead drv behind env fd size.toNat s = r) (ends : ∀ e, r ≠ .error (.kernel e)) :
    ReadBounded size.toNat (r.map Prod.fst) ↔ ReadFits drv s fd size.toNat := by
  cases r with
  | ok v =>
    have there : s.readKind fd ≠ .null := fun null => by
      rw [kRead_null null] at run
      cases run
    rw [← readLength_le size there, ← kRead_length run]
    rfl
  | error e =>
    rcases kRead_raises run with ⟨f, rfl⟩ | ⟨rfl, null⟩
    · exact absurd rfl (ends f)
    · refine iff_of_false (fun clash => clash rfl) ?_
      unfold ReadFits
      rw [null]
      exact id

end Bound

/-! ### Runs -/

section Runs

variable (drv : BlkDriver δ) (behind : BlockPtr → Nat → Word) (env : FsEnv)

/-- What a step of the kernel was: a `k_read`, with the state it began in and how it ended, or
another. -/
inductive IoEvent (δ : Type)
  | read (before : Io δ) (fd : FilePtr) (size : Word) (r : Except IoFault (List Word))
  | other

/-- The steps of the kernel on its files and drivers. Nothing is known of the kernel after it has called
a null pointer. -/
inductive IoStep : Io δ → IoEvent δ → Io δ → Prop
  | read {s t : Io δ} {fd : FilePtr} {size : Word} {words : List Word}
      (run : kRead drv behind env fd size.toNat s = .ok (words, t)) : IoStep s (.read s fd size (.ok words)) t
  | readNull {s t : Io δ} {fd : FilePtr} {size : Word}
      (run : kRead drv behind env fd size.toNat s = .error .null) :
      IoStep s (.read s fd size (.error .null)) t
  | write {s t : Io δ} {fd : FilePtr} {buf : Nat → Word} {size : Word} {n : Nat}
      (run : kWrite drv env fd buf size.toNat s = .ok (n, t)) : IoStep s .other t
  | open {s t : Io δ} {name : CString} {mode : Word} {fp : Option FilePtr}
      (run : kOpen drv env name mode s = .ok (fp, t)) : IoStep s .other t
  | close {s t : Io δ} {fd : FilePtr} (run : kClose fd s = .ok ((), t)) : IoStep s .other t
  | seek {s t : Io δ} {fd : FilePtr} {pos : Nat} (run : kSeek fd pos s = .ok ((), t)) : IoStep s .other t
  | unlink {s t : Io δ} {name : CString} {removed : Bool}
      (run : onFs (kUnlink drv env name) s = .ok (removed, t)) : IoStep s .other t
  | uart {s t : Io δ} {minor : Word} {arrived : List Word}
      (run : uartInterrupt minor arrived s = .ok ((), t)) : IoStep s .other t
  /-- A change of the processes. -/
  | sched {s : Io δ} (procs : Nat → Process) :
      IoStep s .other { s with kernel := { s.kernel with procs := procs } }

/-- What is asked of a step. -/
def IoEvent.Bounded : IoEvent δ → Prop
  | read _ _ size r => ReadBounded size.toNat r
  | other => True

/-- When it holds. -/
def IoEvent.Fits : IoEvent δ → Prop
  | read s fd size _ => ReadFits drv s fd size.toNat
  | other => True

variable {drv behind env} {s t : Io δ} {events : List (IoEvent δ)}

theorem IoStep.exact {event : IoEvent δ} (step : IoStep drv behind env s event t) :
    event.Bounded ↔ event.Fits drv := by
  cases step with
  | read run => exact kRead_bounded_iff _ run fun _ clash => by cases clash
  | readNull run => exact kRead_bounded_iff _ run fun _ clash => by cases clash
  | _ => exact Iff.rfl

/-- **The length of reads over runs**: from every state, in every order of calls, a `k_read` stores no more
than it was asked for just where the bound fits. -/
theorem ioRun_bounded (run : Run (IoStep drv behind env) s events t) :
    ∀ event ∈ events, event.Bounded ↔ event.Fits drv :=
  run.labels (fun _ => True) (fun _ _ _ _ step => ⟨trivial, step.exact⟩) trivial

end Runs

/-! ### One open device -/

/-- The kernel with one process besides the worker, and one `FILE` of a character device. -/
def devIo (major : BitVec 8) : Io (BlockKey → BlockData) where
  kernel :=
    { procs := (bootKernel [1]).procs
      currentTask := 1
      nextPid := 14
      kernelTaskQueue := (bootKernel [1]).kernelTaskQueue
      mm := (bootKernel [1]).mm
      fs := { ramBoot with openFiles := oneFile ⟨0, 40⟩ 0 ⟨true, major, 0⟩ } }
  cmd := fun _ _ => 0
  uartBuffer := fun _ => .create 500
  ttyOpenedAs := fun _ => none
  pipes := fun _ => ⟨false, false, false, .create 256, none⟩
  waitq := fun _ => none
  waitqPendingNotifications := .create 200
  blockRequest := 0
  timeslice := 0
  iobuf := fun _ => 0
  systemInterruptStack := ⟨0, 0, 0, 0, 0, 0, 0⟩
  loopDevs := fun _ => (⟨0, 0⟩, ⟨0, 0⟩)

theorem devIo_kind (major : BitVec 8) : (devIo major).readKind 0 =
    DevOp.readOutcome bootTables sIfchr (DevNode.rdev ⟨true, major, 0⟩) := by
  have file : (devIo major).file 0 = openedFile ⟨0, 40⟩ 0 (DevNode.stat ⟨true, major, 0⟩ ⟨0, 40⟩) := by
    show Function.update noFiles.el 0 (openedFile ⟨0, 40⟩ 0 (DevNode.stat ⟨true, major, 0⟩ ⟨0, 40⟩)) 0 = _
    rw [Function.update_self]
  unfold readKind
  rw [file]
  rfl

/-- **`/dev/proc` stores 69 words where one was asked for.** -/
theorem kRead_proc_unbounded : ∃ words t,
    IoStep ramDriver (fun _ _ => 0) ramEnv (devIo 2) (.read (devIo 2) 0 1 (.ok words)) t ∧
      ¬ IoEvent.Bounded (.read (devIo 2) 0 1 (.ok words)) := by
  have kind : (devIo 2).readKind 0 = .calls .procFileRead := (devIo_kind 2).trans (by decide)
  have run : kRead ramDriver (fun _ _ => 0) ramEnv 0 1 (devIo 2) =
      .ok ((List.range maxProc).flatMap (devIo 2).procEntry ++ [0], devIo 2) := by
    rw [kRead_eq, kind]
    rfl
  refine ⟨_, _, .read run, fun bounded => ?_⟩
  have live : (devIo 2).liveProcs = 2 := by decide
  have count := kRead_length run
  unfold readLength at count
  rw [kind] at count
  have short : _ ≤ 1 := bounded
  rw [count] at short
  unfold handlerLength at short
  rw [live] at short
  exact absurd short (by decide)

/-- A `FILE` of a terminal. -/
def ttyIo (uart : Word → CircularBuffer) : Io (BlockKey → BlockData) := { devIo 1 with uartBuffer := uart }

theorem ttyIo_read {uart : Word → CircularBuffer} (n : Nat) (some : ((uart 0).popWhile n).1 ≠ []) :
    kRead ramDriver (fun _ _ => 0) ramEnv 0 n (ttyIo uart) =
      .ok (((uart 0).popWhile n).1, ttyIo (Function.update uart 0 ((uart 0).popWhile n).2)) := by
  have kind : (ttyIo uart).readKind 0 = .calls .ttyRead := (devIo_kind 1).trans (by decide)
  have minor : ((ttyIo uart).file 0).device &&& 0xff = 0 := (by decide : ((devIo 1).file 0).device &&& 0xff = 0)
  rw [kRead_eq, kind]
  dsimp only
  rw [minor]
  show (do
    (if ((uart 0).popWhile n).1 = [] then setBlockRequest 1 else pure ())
    pure ((uart 0).popWhile n).1 : IoM _ (List Word)) (ttyIo (Function.update uart 0 ((uart 0).popWhile n).2)) = _
  rw [if_neg some]
  rfl

/-- Two characters that have arrived. -/
def arrivedTwo : Word → CircularBuffer := fun _ => ((CircularBuffer.create 500).push 104).push 105

/-- One of two characters is read, and then up to four. -/
theorem ioRun_bounded_tty : ∃ s t, Run (IoStep ramDriver (fun _ _ => 0) ramEnv) (ttyIo arrivedTwo)
      [.read (ttyIo arrivedTwo) 0 1 (.ok [104]), .read s 0 4 (.ok [105])] t ∧
    ∀ event ∈ [IoEvent.read (ttyIo arrivedTwo) 0 1 (.ok [104]), .read s 0 4 (.ok [105])],
      event.Bounded ↔ event.Fits ramDriver := by
  have first := @ttyIo_read arrivedTwo (1 : Word).toNat (by decide)
  have second := @ttyIo_read (Function.update arrivedTwo 0 ((arrivedTwo 0).popWhile 1).2) (4 : Word).toNat (by decide)
  have one : ((arrivedTwo 0).popWhile (1 : Word).toNat).1 = [104] := by decide
  have other : ((Function.update arrivedTwo 0 ((arrivedTwo 0).popWhile 1).2 0).popWhile (4 : Word).toNat).1 = [105] := by
    decide
  rw [one] at first
  rw [other] at second
  have run : Run (IoStep ramDriver (fun _ _ => 0) ramEnv) (ttyIo arrivedTwo)
      [.read (ttyIo arrivedTwo) 0 1 (.ok [104]),
        .read (ttyIo (Function.update arrivedTwo 0 ((arrivedTwo 0).popWhile 1).2)) 0 4 (.ok [105])] _ :=
    .cons (.read first) (.single (.read second))
  exact ⟨_, _, run, ioRun_bounded run⟩

end Io

end RlCpu.Kernel
