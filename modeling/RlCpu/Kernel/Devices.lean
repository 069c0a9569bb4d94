/-
**The dispatch of devices (`rlfs3.c`, `kernel_main.c`).**

`devList` has the handlers of a driver under its major number. `k_open`, `k_read`, `k_write`, `k_ioctl`
and `k_close` each find the entry of a `FILE` by themselves, with checks of their own. `Outcome` is what
one of them does about the device: it calls a handler, does without one, fails, or leaves the table.

* `DevOp.outcome`: the dispatch of each call.
* `outcome_safe_iff`: when one call stays in the table and calls what is there.
* `deviceRun_safe`: every order of calls on a node that `k_mknod` made.
-/

import RlCpu.Kernel.Create
import RlCpu.Lib.Runs

namespace RlCpu.Kernel

open RlCpu.Lib

/-! ### The tables -/

/-- `struct devOpTable`, over the handlers `η`; `none` is a null pointer. -/
structure DevOpTable (η : Type) where
  registered : Bool
  write : Option η
  read : Option η
  «open» : Option η
  close : Option η
  ioctl : Option η

/-- The tables of drivers: `devList`, the flags of `extDevList`, and the majors that `regBlkDriver` gave
a block driver. -/
structure DevTables (η : Type) where
  devList : Fin maxDevs → DevOpTable η
  extDevList : Fin maxDevs → Bool
  blkdrivers : Word → Bool

variable {η : Type}

namespace DevTables

/-- The tables before the first driver is registered. -/
def empty (extDevList : Fin maxDevs → Bool) (blkdrivers : Word → Bool) : DevTables η where
  devList _ := ⟨false, none, none, none, none, none⟩
  extDevList := extDevList
  blkdrivers := blkdrivers

/-- A call of `k_regDevice`. -/
structure Registration (η : Type) where
  major : Word
  write : Option η
  read : Option η
  «open» : Option η
  close : Option η
  ioctl : Option η

/-- The entry that is made. -/
def Registration.entry (r : Registration η) : DevOpTable η :=
  ⟨true, r.write, r.read, r.open, r.close, r.ioctl⟩

/-- `k_regDevice` -/
def kRegDevice (t : DevTables η) (r : Registration η) : DevTables η :=
  if low : r.major.toNat < maxDevs then
    { t with devList := Function.update t.devList ⟨r.major.toNat, low⟩ r.entry }
  else t

/-- The tables after the calls `regs` of `k_regDevice`. -/
def registered (regs : List (Registration η)) (extDevList : Fin maxDevs → Bool)
    (blkdrivers : Word → Bool) : DevTables η :=
  regs.foldl kRegDevice (empty extDevList blkdrivers)

/-- Every entry that is not registered is null. -/
def NullUnregistered (t : DevTables η) : Prop :=
  ∀ i, (t.devList i).registered = false → t.devList i = ⟨false, none, none, none, none, none⟩

theorem NullUnregistered.reg {t : DevTables η} (null : t.NullUnregistered) (r : Registration η) :
    (t.kRegDevice r).NullUnregistered := by
  unfold kRegDevice
  split
  case isTrue low =>
    intro i
    show (Function.update t.devList _ r.entry i).registered = false →
      Function.update t.devList _ r.entry i = _
    by_cases here : i = ⟨r.major.toNat, low⟩
    · subst here
      rw [Function.update_self]
      exact fun clash => by cases clash
    · rw [Function.update_of_ne here]
      exact null i
  case isFalse => exact null

/-- **A handler in the table was put there by `k_regDevice`.** -/
theorem registered_null (regs : List (Registration η)) (ext : Fin maxDevs → Bool) (blk : Word → Bool) :
    (registered regs ext blk).NullUnregistered := by
  have keep : ∀ (rs : List (Registration η)) (t : DevTables η), t.NullUnregistered →
      (rs.foldl kRegDevice t).NullUnregistered := by
    intro rs
    induction rs with
    | nil => exact fun _ null => null
    | cons r rs ih => exact fun t null => ih _ (null.reg r)
  exact keep regs _ fun _ _ => rfl

/-- The entry of a major below `MAX_DEVS`. -/
def entry (t : DevTables η) (major : Word) : Option (DevOpTable η) :=
  if low : major.toNat < maxDevs then some (t.devList ⟨major.toNat, low⟩) else none

/-- The major is registered. -/
def IsRegistered (t : DevTables η) (major : Word) : Prop :=
  ∃ e, t.entry major = some e ∧ e.registered = true

end DevTables

/-! ### The dispatch -/

/-- What a call does about the device. -/
inductive Outcome (η : Type)
  /-- A handler is called. -/
  | calls (handler : η)
  /-- The block cache serves the call through the block driver. -/
  | block
  /-- There is nothing to call, and the call succeeds. -/
  | served
  /-- The call fails and calls nothing. -/
  | failed
  /-- `devList` or `extDevList` is indexed at `MAX_DEVS` or above. -/
  | outside
  /-- A null pointer is called. -/
  | null
  /-- `getBlkDriver` panics. -/
  | noDriver
  deriving DecidableEq

/-- A call on a device. -/
inductive DevOp
  | «open»
  | read
  | write
  | ioctl
  | close
  deriving DecidableEq, Repr

namespace DevOp

/-- The major number, `st_rdev >> 8` or `fd->device >> 8`. -/
def major (device : Word) : Word := device >>> 8

/-- A handler that is called if it is there. -/
def callOr (handler : Option η) (otherwise : Outcome η) : Outcome η :=
  match handler with
  | some h => .calls h
  | none => otherwise

/-- `ops = &devList[major]`, and what is done with `ops`. -/
def index (t : DevTables η) (device : Word) (rest : DevOpTable η → Outcome η) : Outcome η :=
  match t.entry (major device) with
  | some ops => rest ops
  | none => .outside

/-- The end of `blkdev_read` and `blkdev_write`: `bread` on the device. -/
def blkdev (t : DevTables η) (device : Word) : Outcome η :=
  if t.blkdrivers (major device) then .block else .noDriver

/-- `fs_open`, after the `FILE` was made. -/
def openOutcome (t : DevTables η) (flags device : Word) : Outcome η :=
  if sIschr flags || sIsblk flags then index t device fun ops => callOr ops.open .served else .served

/-- `k_read` -/
def readOutcome (t : DevTables η) (flags device : Word) : Outcome η :=
  if sIsblk flags then blkdev t device
  else if sIschr flags then
    if major device &&& 0xf0 ≠ 0 then
      if (major device).toNat < maxDevs then
        -- an external device is only reported
        if (major device &&& 0x7f).toNat < maxDevs then .failed else .outside
      else .failed
    else if (major device).toNat < maxDevs then
      index t device fun ops => if ops.registered then callOr ops.read .null else .failed
    else .failed
  else .served

/-- `k_write`; neither the major nor the flag of the entry is checked. -/
def writeOutcome (t : DevTables η) (flags device : Word) : Outcome η :=
  if sIsblk flags then blkdev t device
  else if sIschr flags then index t device fun ops => callOr ops.write .null
  else .served

/-- `k_ioctl` -/
def ioctlOutcome (t : DevTables η) (flags device : Word) : Outcome η :=
  if sIschr flags || sIsblk flags then index t device fun ops => callOr ops.ioctl .failed else .failed

/-- `k_close`, where the last reference goes. -/
def closeOutcome (t : DevTables η) (flags device : Word) : Outcome η :=
  if sIschr flags then index t device fun ops => callOr ops.close .served else .served

/-- The dispatch of a call. -/
def outcome (t : DevTables η) (flags device : Word) : DevOp → Outcome η
  | .open => openOutcome t flags device
  | read => readOutcome t flags device
  | write => writeOutcome t flags device
  | ioctl => ioctlOutcome t flags device
  | close => closeOutcome t flags device

/-- The call can fail: `k_close` returns nothing. -/
def CanFail (op : DevOp) : Prop := op ≠ .close

/-- **What is asked of a call**: it stays in the tables, the handler it calls is one of a registered
entry, and on a major that is not registered it fails, if it can, and calls nothing. -/
def Safe (t : DevTables η) (device : Word) (op : DevOp) : Outcome η → Prop
  | .calls h => ∃ e, t.entry (major device) = some e ∧ e.registered = true ∧
      (e.open = some h ∨ e.read = some h ∨ e.write = some h ∨ e.ioctl = some h ∨ e.close = some h)
  | .block => True
  | .served => op.CanFail → t.IsRegistered (major device)
  | .failed => True
  | .outside => False
  | .null => False
  | .noDriver => False

/-- **When a call is safe**, for a character or a block device. -/
def Supported (t : DevTables η) (isChr : Bool) (device : Word) : DevOp → Prop
  | .open => t.IsRegistered (major device)
  | read => if isChr then ∀ e, t.entry (major device) = some e → e.registered = true → e.read ≠ none
      else t.blkdrivers (major device) = true
  | write => if isChr then ∃ e, t.entry (major device) = some e ∧ e.write ≠ none
      else t.blkdrivers (major device) = true
  | ioctl => (major device).toNat < maxDevs
  | close => isChr = true → (major device).toNat < maxDevs

/-! ### One call -/

section Step

variable {t : DevTables η} {device flags : Word}

theorem entry_some {major : Word} {e : DevOpTable η} (found : t.entry major = some e) :
    ∃ low : major.toNat < maxDevs, t.devList ⟨major.toNat, low⟩ = e := by
  unfold DevTables.entry at found
  split at found
  case isTrue low => exact ⟨low, Option.some.inj found⟩
  case isFalse => cases found

theorem entry_none {major : Word} : t.entry major = none ↔ ¬ major.toNat < maxDevs := by
  unfold DevTables.entry
  split
  case isTrue low =>
    constructor
    · intro clash
      cases clash
    · exact fun high => absurd low high
  case isFalse high => exact iff_of_true rfl high

/-- A handler is in a registered entry only. -/
theorem registered_of_handler (null : t.NullUnregistered) {major : Word} {e : DevOpTable η} {h : η}
    (found : t.entry major = some e) (here : e.open = some h ∨ e.read = some h ∨ e.write = some h ∨
      e.ioctl = some h ∨ e.close = some h) : e.registered = true := by
  obtain ⟨low, rfl⟩ := entry_some found
  by_contra free
  rw [null _ ((Bool.not_eq_true _).mp free)] at here
  rcases here with clash | clash | clash | clash | clash <;> cases clash

/-- The dispatch through an entry that is there. -/
theorem index_some {e : DevOpTable η} {rest : DevOpTable η → Outcome η}
    (found : t.entry (major device) = some e) : index t device rest = rest e := by
  unfold index
  rw [found]

theorem index_none {rest : DevOpTable η → Outcome η} (high : t.entry (major device) = none) :
    index t device rest = .outside := by
  unfold index
  rw [high]

/-- An external major is not below `MAX_DEVS`. -/
theorem external_high {major : Word} (ext : major &&& 0xf0 ≠ 0) : ¬ major.toNat < maxDevs := by
  intro low
  have small : ∀ m : Fin maxDevs, BitVec.ofNat 16 m.val &&& 0xf0#16 = 0#16 := by decide
  have here := small ⟨major.toNat, low⟩
  rw [BitVec.ofNat_toNat, BitVec.setWidth_eq] at here
  exact ext here

/-- A handler of the entry, or nothing. -/
theorem safe_callOr (null : t.NullUnregistered) {op : DevOp} {e : DevOpTable η} {handler : Option η}
    {otherwise : Outcome η} (found : t.entry (major device) = some e)
    (here : ∀ h, handler = some h → e.open = some h ∨ e.read = some h ∨ e.write = some h ∨
      e.ioctl = some h ∨ e.close = some h) :
    Safe t device op (callOr handler otherwise) ↔ (handler = none → Safe t device op otherwise) := by
  cases handler with
  | none => exact ⟨fun safe _ => safe, fun safe => safe rfl⟩
  | some h =>
    have put := here h rfl
    refine iff_of_true ⟨e, found, registered_of_handler null found put, put⟩ ?_
    intro clash
    cases clash

/-- The mode of a device node. -/
def modeOf (isChr : Bool) : Word := if isChr then sIfchr else sIfblk

theorem sIschr_modeOf (isChr : Bool) : sIschr (modeOf isChr) = isChr := by
  cases isChr <;> decide

theorem sIsblk_modeOf (isChr : Bool) : sIsblk (modeOf isChr) = !isChr := by
  cases isChr <;> decide

theorem isRegistered_iff {major : Word} {e : DevOpTable η} (found : t.entry major = some e) :
    t.IsRegistered major ↔ e.registered = true := by
  constructor
  · rintro ⟨f, found', here⟩
    rw [found] at found'
    exact Option.some.inj found' ▸ here
  · exact fun here => ⟨e, found, here⟩

theorem not_isRegistered {major : Word} (high : t.entry major = none) : ¬ t.IsRegistered major := by
  rintro ⟨e, found, -⟩
  rw [high] at found
  cases found

theorem open_safe_iff (null : t.NullUnregistered) (isChr : Bool) :
    Safe t device .open (openOutcome t (modeOf isChr) device) ↔ Supported t isChr device .open := by
  unfold openOutcome
  rw [sIschr_modeOf, sIsblk_modeOf, Bool.or_not_self, if_pos rfl]
  cases found : t.entry (major device) with
  | none =>
    rw [index_none found]
    exact iff_of_false id (not_isRegistered found)
  | some e =>
    rw [index_some found, safe_callOr null found fun h here => Or.inl here]
    refine (imp_congr_right fun _ => ?_).trans ⟨fun safe => ?_, fun reg _ => reg⟩
    · exact ⟨fun served => served fun clash => (by cases clash), fun reg _ => reg⟩
    · refine (isRegistered_iff found).mpr ?_
      by_contra free
      obtain ⟨low, rfl⟩ := entry_some found
      have nothing := null _ ((Bool.not_eq_true _).mp free)
      exact free ((isRegistered_iff found).mp (safe (by rw [nothing])))

theorem blkdev_safe_iff {op : DevOp} :
    Safe t device op (blkdev t device) ↔ t.blkdrivers (major device) = true := by
  unfold blkdev
  split
  case isTrue here => exact iff_of_true trivial here
  case isFalse missing => exact iff_of_false id missing

theorem read_safe_iff (null : t.NullUnregistered) (isChr : Bool) :
    Safe t device .read (readOutcome t (modeOf isChr) device) ↔ Supported t isChr device .read := by
  unfold readOutcome
  rw [sIschr_modeOf, sIsblk_modeOf]
  cases isChr with
  | false => exact blkdev_safe_iff
  | true =>
    rw [if_neg (by decide), if_pos rfl]
    show _ ↔ ∀ e, t.entry (major device) = some e → e.registered = true → e.read ≠ none
    by_cases low : (major device).toNat < maxDevs
    · have plain : ¬ (major device &&& 0xf0 ≠ 0) := fun ext => external_high ext low
      obtain ⟨e, found⟩ : ∃ e, t.entry (major device) = some e := by
        cases found : t.entry (major device) with
        | none => exact absurd low (entry_none.mp found)
        | some e => exact ⟨e, rfl⟩
      rw [if_neg plain, if_pos low, index_some found]
      cases reg : e.registered with
      | false =>
        refine iff_of_true trivial fun f found' here => ?_
        rw [found] at found'
        rw [← Option.some.inj found', reg] at here
        cases here
      | true =>
        rw [if_pos rfl, safe_callOr null found fun h here => Or.inr (Or.inl here)]
        refine ⟨fun some f found' _ none => ?_, fun some none => some e found reg none⟩
        rw [found] at found'
        exact some (Option.some.inj found' ▸ none)
    · have absent := entry_none (t := t).mpr low
      rw [if_neg low, if_neg low, ite_self]
      refine iff_of_true trivial fun e found => ?_
      rw [absent] at found
      cases found

theorem write_safe_iff (null : t.NullUnregistered) (isChr : Bool) :
    Safe t device .write (writeOutcome t (modeOf isChr) device) ↔ Supported t isChr device .write := by
  unfold writeOutcome
  rw [sIschr_modeOf, sIsblk_modeOf]
  cases isChr with
  | false => exact blkdev_safe_iff
  | true =>
    show Safe t device .write (index t device fun ops => callOr ops.write .null) ↔
      ∃ e, t.entry (major device) = some e ∧ e.write ≠ none
    cases found : t.entry (major device) with
    | none =>
      rw [index_none found]
      refine iff_of_false id fun ⟨e, clash, _⟩ => ?_
      cases clash
    | some e =>
      rw [index_some found, safe_callOr null found fun h here => Or.inr (Or.inr (Or.inl here))]
      refine ⟨fun some => ⟨e, rfl, some⟩, ?_⟩
      rintro ⟨f, same, some⟩ none
      exact some (Option.some.inj same ▸ none)

theorem ioctl_safe_iff (null : t.NullUnregistered) (isChr : Bool) :
    Safe t device .ioctl (ioctlOutcome t (modeOf isChr) device) ↔ Supported t isChr device .ioctl := by
  unfold ioctlOutcome
  rw [sIschr_modeOf, sIsblk_modeOf, Bool.or_not_self, if_pos rfl]
  show _ ↔ (major device).toNat < maxDevs
  cases found : t.entry (major device) with
  | none =>
    rw [index_none found]
    exact iff_of_false id (entry_none.mp found)
  | some e =>
    rw [index_some found,
      safe_callOr null found fun h here => Or.inr (Or.inr (Or.inr (Or.inl here)))]
    exact iff_of_true (fun _ => trivial) (entry_some found).1

theorem close_safe_iff (null : t.NullUnregistered) (isChr : Bool) :
    Safe t device .close (closeOutcome t (modeOf isChr) device) ↔ Supported t isChr device .close := by
  have noFail : ¬ CanFail .close := fun can => can rfl
  unfold closeOutcome
  rw [sIschr_modeOf]
  cases isChr with
  | false =>
    refine iff_of_true (fun can => absurd can noFail) fun clash => ?_
    cases clash
  | true =>
    rw [if_pos rfl]
    show _ ↔ (true = true → (major device).toNat < maxDevs)
    cases found : t.entry (major device) with
    | none =>
      rw [index_none found]
      exact iff_of_false id fun low => entry_none.mp found (low rfl)
    | some e =>
      rw [index_some found,
        safe_callOr null found fun h here => Or.inr (Or.inr (Or.inr (Or.inr here)))]
      exact iff_of_true (fun _ can => absurd can noFail) fun _ => (entry_some found).1

/-- **When one call is safe**, one case for each call. -/
theorem outcome_safe_iff (null : t.NullUnregistered) (isChr : Bool) (op : DevOp) :
    Safe t device op (op.outcome t (modeOf isChr) device) ↔ Supported t isChr device op := by
  cases op with
  | «open» => exact open_safe_iff null isChr
  | read => exact read_safe_iff null isChr
  | write => exact write_safe_iff null isChr
  | ioctl => exact ioctl_safe_iff null isChr
  | close => exact close_safe_iff null isChr

end Step

end DevOp

/-! ### Calls on a device node -/

/-- A node made by `k_mknod`: its type, and 8-bit numbers. -/
structure DevNode where
  isChr : Bool
  major : BitVec 8
  minor : BitVec 8

namespace DevNode

/-- `st_rdev`, the word that `k_mknod` writes. -/
def rdev (node : DevNode) : Word :=
  (node.major.setWidth 16 <<< 8) ||| (node.minor.setWidth 16 &&& 0xff)

/-- What `fs_stat` says about the node at `at`. -/
def stat (node : DevNode) (at' : FsNode) : Stat :=
  ⟨at'.dev, at'.idx, DevOp.modeOf node.isChr, node.rdev, 1⟩

/-- **The major number comes back.** -/
theorem major_rdev (node : DevNode) : DevOp.major node.rdev = node.major.setWidth 16 := by
  unfold DevOp.major rdev
  refine BitVec.eq_of_getLsbD_eq fun i small => ?_
  have mask : ∀ i : Fin 16, ((0xff : Word).getLsbD (8 + i.val)) = false := by decide
  have mask := mask ⟨i, small⟩
  simp only [BitVec.getLsbD_ushiftRight, BitVec.getLsbD_or, BitVec.getLsbD_and, mask,
    BitVec.getLsbD_shiftLeft, BitVec.getLsbD_setWidth, Bool.and_false, Bool.or_false]
  by_cases low : i < 8
  · simp [show 8 + i < 16 by omega, small]
  · have high : node.major.getLsbD i = false := BitVec.getLsbD_of_ge _ _ (by omega)
    simp [high]

/-- The stat of the node that `k_mknod` leaves. -/
theorem statOf_mknod {data : BlockKey → BlockData} {d x : Word} (node : DevNode)
    (made : data (d, x) = (newNode (DevOp.modeOf node.isChr)).put 1 node.rdev) :
    statOf data d x = node.stat ⟨d, x⟩ := by
  have mode : nodeMode data d x = DevOp.modeOf node.isChr := by
    unfold nodeMode
    rw [made, BlockData.word_put_ne _ _ (by decide), newNode_mode]
  have size : fileSize data d x = node.rdev.toNat := by
    unfold fileSize BlockData.size
    rw [made, BlockData.word_put_self _ _ (by decide), BlockData.word_put_ne _ _ (by decide),
      newNode_word _ (by decide)]
    rfl
  unfold statOf stat
  rw [mode, size, DevOp.sIschr_modeOf, DevOp.sIsblk_modeOf, Bool.or_not_self, if_pos rfl,
    BitVec.ofNat_toNat, BitVec.setWidth_eq]

end DevNode

/-- A call, on a `FILE` or on the node. -/
inductive DevCall
  | «open» (mode : Word)
  | read (fd : FilePtr)
  | write (fd : FilePtr)
  | ioctl (fd : FilePtr)
  | close (fd : FilePtr)

namespace DevCall

/-- The dispatch a call goes through. -/
def op : DevCall → DevOp
  | .open _ => .open
  | read _ => .read
  | write _ => .write
  | ioctl _ => .ioctl
  | close _ => .close

/-- The files after `k_close`: a `FILE` is removed with its last reference. -/
def closed (files : KSet File maxFiles) (fd : FilePtr) : KSet File maxFiles :=
  let less := files.assign fd { files.el fd with refcnt := (files.el fd).refcnt - 1 }
  if (files.el fd).refcnt - 1 = 0 then less.removeByElement fd else less

/-- The dispatch of `k_close`: none unless the last reference goes. -/
def closeDispatch (t : DevTables η) (f : File) : Outcome η :=
  if f.refcnt - 1 = 0 then DevOp.closeOutcome t f.flags f.device else .served

/-- An open `FILE` of the node. -/
def IsOpen (files : KSet File maxFiles) (place : FsNode) (fd : FilePtr) : Prop :=
  files.used fd = true ∧ (files.el fd).node = place

/-- A call on the open files, with its dispatch. Calls on a `FILE` are for one of the node that is
open. -/
inductive Step (t : DevTables η) (node : DevNode) (place : FsNode) :
    KSet File maxFiles → DevCall × Outcome η → KSet File maxFiles → Prop
  | «open» {files files' : KSet File maxFiles} {fd : FilePtr} (mode : Word) :
      files.insert (openedFile place mode (node.stat place)) = .ok (fd, files') →
      Step t node place files
        (.open mode, DevOp.openOutcome t (files'.el fd).flags (files'.el fd).device) files'
  | read {files : KSet File maxFiles} {fd : FilePtr} : IsOpen files place fd →
      Step t node place files
        (.read fd, DevOp.readOutcome t (files.el fd).flags (files.el fd).device) files
  | write {files : KSet File maxFiles} {fd : FilePtr} : IsOpen files place fd →
      Step t node place files
        (.write fd, DevOp.writeOutcome t (files.el fd).flags (files.el fd).device) files
  | ioctl {files : KSet File maxFiles} {fd : FilePtr} : IsOpen files place fd →
      Step t node place files
        (.ioctl fd, DevOp.ioctlOutcome t (files.el fd).flags (files.el fd).device) files
  | close {files : KSet File maxFiles} {fd : FilePtr} : IsOpen files place fd →
      Step t node place files (.close fd, closeDispatch t (files.el fd)) (closed files fd)

/-- The invariant of the runs: a `FILE` of the node has its type and numbers, and one reference. -/
def Opened (node : DevNode) (place : FsNode) (files : KSet File maxFiles) : Prop :=
  ∀ fd, IsOpen files place fd → (files.el fd).flags = DevOp.modeOf node.isChr ∧
    (files.el fd).device = node.rdev ∧ (files.el fd).refcnt = 1

/-- Each call is safe just where it is supported. -/
def Exact (t : DevTables η) (node : DevNode) (l : DevCall × Outcome η) : Prop :=
  DevOp.Safe t node.rdev l.1.op l.2 ↔ DevOp.Supported t node.isChr node.rdev l.1.op

section Steps

variable {t : DevTables η} {node : DevNode} {place : FsNode} {files files' : KSet File maxFiles}
  {l : DevCall × Outcome η}

/-- What a `FILE` of the node is after `set_insert`. -/
theorem Opened.insert (opened : Opened node place files) {mode : Word} {fd : FilePtr}
    (inserted : files.insert (openedFile place mode (node.stat place)) = .ok (fd, files')) :
    Opened node place files' ∧ files'.el fd = openedFile place mode (node.stat place) := by
  obtain ⟨-, -, rfl⟩ := KSet.insert_ok inserted
  refine ⟨fun other isOpen => ?_, Function.update_self _ _ _⟩
  by_cases here : other = fd
  · subst here
    dsimp only
    rw [Function.update_self]
    exact ⟨rfl, rfl, rfl⟩
  · unfold IsOpen at isOpen
    dsimp only at isOpen ⊢
    rw [Function.update_of_ne here] at isOpen ⊢
    rw [Function.update_of_ne here] at isOpen
    exact opened other isOpen

/-- `k_close` leaves the other `FILE`s alone. -/
theorem Opened.closed (opened : Opened node place files) {fd : FilePtr} (isOpen : IsOpen files place fd) :
    Opened node place (closed files fd) := by
  obtain ⟨-, -, one⟩ := opened fd isOpen
  have last : (files.el fd).refcnt - 1 = 0 := by
    rw [one]
    decide
  unfold DevCall.closed
  dsimp only
  rw [if_pos last]
  intro other later
  unfold IsOpen KSet.removeByElement KSet.assign at later
  dsimp only at later
  have ne : other ≠ fd := by
    rintro rfl
    rw [Function.update_self] at later
    cases later.1
  rw [Function.update_of_ne ne, Function.update_of_ne ne] at later
  unfold KSet.removeByElement KSet.assign
  dsimp only
  rw [Function.update_of_ne ne]
  exact opened other later

/-- **One call**: it keeps the invariant, and is safe just where it is supported. -/
theorem Step.exact (null : t.NullUnregistered) (opened : Opened node place files)
    (step : Step t node place files l files') : Opened node place files' ∧ Exact t node l := by
  cases step with
  | «open» mode inserted =>
    obtain ⟨next, made⟩ := opened.insert inserted
    refine ⟨next, ?_⟩
    rw [made]
    exact DevOp.outcome_safe_iff null node.isChr .open
  | read isOpen =>
    obtain ⟨flags, device, -⟩ := opened _ isOpen
    rw [flags, device]
    exact ⟨opened, DevOp.outcome_safe_iff null node.isChr .read⟩
  | write isOpen =>
    obtain ⟨flags, device, -⟩ := opened _ isOpen
    rw [flags, device]
    exact ⟨opened, DevOp.outcome_safe_iff null node.isChr .write⟩
  | ioctl isOpen =>
    obtain ⟨flags, device, -⟩ := opened _ isOpen
    rw [flags, device]
    exact ⟨opened, DevOp.outcome_safe_iff null node.isChr .ioctl⟩
  | @close fd isOpen =>
    obtain ⟨flags, device, one⟩ := opened _ isOpen
    refine ⟨opened.closed isOpen, ?_⟩
    have last : (files.el fd).refcnt - 1 = 0 := by
      rw [one]
      decide
    unfold closeDispatch
    rw [if_pos last, flags, device]
    exact DevOp.outcome_safe_iff null node.isChr .close

/-- **Device dispatch over runs**: after any registrations, in every order of calls on a node that
`k_mknod` made, a call is safe just where it is supported. -/
theorem deviceRun_safe {regs : List (DevTables.Registration η)} {ext : Fin maxDevs → Bool}
    {blk : Word → Bool} {calls : List (DevCall × Outcome η)}
    (fresh : ∀ fd, ¬ IsOpen files place fd)
    (run : Run (Step (DevTables.registered regs ext blk) node place) files calls files') :
    ∀ l ∈ calls, DevOp.Safe (DevTables.registered regs ext blk) node.rdev l.1.op l.2 ↔
      DevOp.Supported (DevTables.registered regs ext blk) node.isChr node.rdev l.1.op :=
  run.labels (Opened node place)
    (fun _ _ _ opened step => step.exact (DevTables.registered_null regs ext blk) opened)
    fun fd isOpen => absurd isOpen (fresh fd)

end Steps

end DevCall

/-! ### The drivers of the kernel -/

/-- The handlers that `kernel_main` registers. -/
inductive BootHandler
  | ttyWrite | ttyRead | ttyOpen | ttyClose | ttyIoctl
  | procFileWrite | procFileRead
  | piperWrite | piperRead | piperOpen | piperClose
  | schedFileWrite | schedFileRead
  | nullFileWrite | nullFileRead
  | zeroFileWrite | zeroFileRead
  | loopIoctl
  deriving DecidableEq, Repr

/-- The calls of `k_regDevice` in `kernel_main`. -/
def bootRegistrations : List (DevTables.Registration BootHandler) :=
  [⟨0, none, none, none, none, none⟩,
   ⟨1, some .ttyWrite, some .ttyRead, some .ttyOpen, some .ttyClose, some .ttyIoctl⟩,
   ⟨2, some .procFileWrite, some .procFileRead, none, none, none⟩,
   ⟨3, some .piperWrite, some .piperRead, some .piperOpen, some .piperClose, none⟩,
   ⟨4, some .schedFileWrite, some .schedFileRead, none, none, none⟩,
   ⟨5, some .nullFileWrite, some .nullFileRead, none, none, none⟩,
   ⟨6, some .zeroFileWrite, some .zeroFileRead, none, none, none⟩,
   ⟨7, none, none, none, none, some .loopIoctl⟩]

/-- The tables of the kernel: block drivers are registered for the disks and for loop devices. -/
def bootTables : DevTables BootHandler :=
  .registered bootRegistrations (fun _ => false) fun major => major == 0 || major == 7

/-- No file is open. -/
def noFiles : KSet File maxFiles := ⟨fun _ => false, fun _ => ⟨0, ⟨0, 0⟩, 0, 0, 0, 0, 0⟩, 0⟩

/-- One `FILE` of the node is open. -/
def oneFile (place : FsNode) (mode : Word) (node : DevNode) : KSet File maxFiles where
  used := Function.update noFiles.used 0 true
  el := Function.update noFiles.el 0 (openedFile place mode (node.stat place))
  size := 1

/-- The first `k_open` of a node. -/
theorem DevCall.Step.first (t : DevTables η) (node : DevNode) (place : FsNode) (mode : Word) :
    Step t node place noFiles (.open mode, DevOp.openOutcome t (DevOp.modeOf node.isChr) node.rdev)
      (oneFile place mode node) := by
  have inserted : noFiles.insert (openedFile place mode (node.stat place)) =
      .ok (0, oneFile place mode node) := rfl
  have made : (oneFile place mode node).el 0 = openedFile place mode (node.stat place) := by
    dsimp only [oneFile]
    rw [Function.update_self]
  have step := Step.open (t := t) mode inserted
  rw [made] at step
  exact step

/-- **A node with major 200 takes `k_open` out of the table.** -/
theorem kOpen_outside : ∃ files, Run (DevCall.Step bootTables ⟨true, 200, 0⟩ ⟨0, 40⟩) noFiles
      [(.open 0, .outside)] files ∧
    ¬ DevOp.Safe bootTables (DevNode.rdev ⟨true, 200, 0⟩) .open .outside := by
  have outside : DevOp.openOutcome bootTables (DevOp.modeOf true) (DevNode.rdev ⟨true, 200, 0⟩) =
      .outside := by decide
  have step := DevCall.Step.first bootTables ⟨true, 200, 0⟩ ⟨0, 40⟩ 0
  rw [outside] at step
  exact ⟨_, .single step, id⟩

/-- `/dev/tty` opened: the handler of the tty is called. -/
theorem deviceRun_safe_tty :
    DevOp.Safe bootTables (DevNode.rdev ⟨true, 1, 0⟩) (DevCall.open 0).op (.calls BootHandler.ttyOpen) ↔
      DevOp.Supported bootTables true (DevNode.rdev ⟨true, 1, 0⟩) (DevCall.open 0).op := by
  have called : DevOp.openOutcome bootTables (DevOp.modeOf true) (DevNode.rdev ⟨true, 1, 0⟩) =
      .calls .ttyOpen := by decide
  have step := DevCall.Step.first bootTables ⟨true, 1, 0⟩ ⟨0, 40⟩ 0
  rw [called] at step
  exact DevCall.deviceRun_safe (fun fd isOpen => by cases isOpen.1) (.single step)
    (.open 0, .calls .ttyOpen) List.mem_cons_self

end RlCpu.Kernel
