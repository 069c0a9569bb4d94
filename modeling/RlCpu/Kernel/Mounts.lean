/-
**Mount resolution (`fs_finddir`, `k_mount`, `k_umount`).**

The table is searched by mount point on the way down and by root on the way up, and a root is known by its device number
alone: which mount it was reached through is not kept.

`Spot`: a node with the mounts it was reached through. `follow`: where a path leads with these. `Tidy`: no two entries
share a device, a mount point or a root, and no mount is on a root. `FreshMount`: a mount that keeps it so.

* `follow_resolve`: in a tidy table the walk by nodes is the walk by spots.
* `mounts_right`: after every run of fresh mounts and of unmounts, resolution is as it should be.
* `umount_other`: a device that is mounted twice is not unmounted where it was mounted last.
-/

import RlCpu.Kernel.Mtab
import RlCpu.Lib.Keyed

namespace RlCpu.Kernel

open RlCpu.Lib

variable {δ : Type}

/-! ### What should be found -/

/-- A node, and the mounts it was reached through, the last first. -/
structure Spot where
  node : FsNode
  through : List MtabEntry

namespace Spot

/-- Where `..` is looked up: at a mounted root that was reached through its mount, in the directory below. -/
def up (node : FsNode) : List MtabEntry → Spot
  | [] => ⟨node, []⟩
  | ent :: through => if node = ent.fsRoot then up ent.mountPoint through else ⟨node, ent :: through⟩

/-- A node entered: where something is mounted on it, the root of that. -/
def enter (mtab : List MtabEntry) (node : FsNode) (through : List MtabEntry) : Spot :=
  match fsMtabSeek mtab node with
  | some ent => ⟨ent.fsRoot, ent :: through⟩
  | none => ⟨node, through⟩

end Spot

/-- The name is `..`. -/
def IsDotDot (what : List Word) : Prop := strcmpEq what [dot, dot, 0] = true

instance (what : List Word) : Decidable (IsDotDot what) := inferInstanceAs (Decidable (_ = _))

section Spec

variable (env : FsEnv) (data : BlockKey → BlockData)

/-- The node that a directory has under a name, whatever is mounted. -/
def named (dir : FsNode) (what : List Word) : Option FsNode :=
  findsIn { env with mtab := [] } data dir what (entriesOf data dir)

end Spec

/-- **The mounts do not meet.** -/
structure Tidy (env : FsEnv) (mtab : List MtabEntry) : Prop where
  devices : (mtab.map (·.deviceNode)).Nodup
  points : (mtab.map (·.mountPoint)).Nodup
  roots : (mtab.map (·.fsRoot.dev)).Nodup
  inside : ∀ ent ∈ mtab, ent.fsRoot.dev ≠ env.fsRoot.dev ∧ ent.mountPoint ≠ env.fsRoot
  apart : ∀ ent ∈ mtab, ∀ other ∈ mtab, ent.mountPoint ≠ other.fsRoot

/-- **A mount that meets no other**: neither its device file nor its device is mounted, the root directory is not on
that device, and it is not on the root directory, on a directory that something is mounted on, or on a mounted root.
-/
structure FreshMount (env : FsEnv) (mtab : List MtabEntry) (device dir root : FsNode) : Prop where
  newDevice : ∀ ent ∈ mtab, ent.deviceNode ≠ device
  newRoot : root.dev ≠ env.fsRoot.dev ∧ ∀ ent ∈ mtab, ent.fsRoot.dev ≠ root.dev ∧ ent.mountPoint ≠ root
  newPoint : dir ≠ env.fsRoot ∧ dir ≠ root ∧ ∀ ent ∈ mtab, ent.mountPoint ≠ dir ∧ ent.fsRoot ≠ dir

section Facts

variable {env : FsEnv} {data : BlockKey → BlockData} {mtab front back : List MtabEntry} {ent : MtabEntry}
  {node dir device root : FsNode} {what : List Word}

/-- A mounted root. -/
theorem Tidy.finddirWhere_root (tidy : Tidy env mtab) (mem : ent ∈ mtab) (dots : IsDotDot what) :
    finddirWhere mtab ent.fsRoot what = ent.mountPoint := by
  have keys : (mtab.map (·.fsRoot)).Nodup := by
    have devs := tidy.roots
    rw [show (fun ent : MtabEntry => ent.fsRoot.dev) = FsNode.dev ∘ (·.fsRoot) from rfl, ← List.map_map] at devs
    exact List.Nodup.of_map _ devs
  unfold finddirWhere fsMtabRseek
  rw [if_pos (show strcmpEq what _ = true from dots), find?_key keys mem]

theorem finddirWhere_other (none : ∀ ent ∈ mtab, ent.fsRoot ≠ node) (what : List Word) :
    finddirWhere mtab node what = node := by
  unfold finddirWhere fsMtabRseek
  rw [find?_key_none none, ite_self]

end Facts

/-! ### Nodes and spots -/

/-- A node is on the device of the mount that it was reached through last, or of the root. -/
def Anchored (env : FsEnv) : FsNode → List MtabEntry → Prop
  | node, [] => node.dev = env.fsRoot.dev
  | node, ent :: through => node.dev = ent.fsRoot.dev ∧ ent ∈ env.mtab ∧ Anchored env ent.mountPoint through

section Walk

variable {env : FsEnv} {data : BlockKey → BlockData} {node node' : FsNode} {through : List MtabEntry} {what : List Word}

/-- A node of the same device. -/
theorem Anchored.same (anchored : Anchored env node through) (dev : node'.dev = node.dev) :
    Anchored env node' through := by
  cases through with
  | nil => exact dev.trans anchored
  | cons ent through => exact ⟨dev.trans anchored.1, anchored.2⟩

theorem Anchored.enter (anchored : Anchored env node through) :
    Anchored env (Spot.enter env.mtab node through).node (Spot.enter env.mtab node through).through := by
  unfold Spot.enter
  cases found : fsMtabSeek env.mtab node with
  | none => exact anchored
  | some ent =>
    obtain ⟨mem, rfl⟩ := find?_key_some found
    exact ⟨rfl, mem, anchored⟩

/-- A node that is no mounted root. -/
theorem Anchored.up_other (anchored : Anchored env node through) (none : ∀ ent ∈ env.mtab, ent.fsRoot ≠ node) :
    Spot.up node through = ⟨node, through⟩ := by
  cases through with
  | nil => rfl
  | cons ent through => exact if_neg fun same => none ent anchored.2.1 same.symm

/-- **Up**: in a tidy table the code goes where the mounts say. -/
theorem Anchored.up (tidy : Tidy env env.mtab) (anchored : Anchored env node through) (dots : IsDotDot what) :
    Spot.up node through = ⟨finddirWhere env.mtab node what, (Spot.up node through).through⟩ ∧
      Anchored env (Spot.up node through).node (Spot.up node through).through := by
  cases through with
  | nil =>
    have none : ∀ ent ∈ env.mtab, ent.fsRoot ≠ node := fun ent mem same =>
      (tidy.inside ent mem).1 ((congrArg FsNode.dev same).trans anchored)
    rw [anchored.up_other none, finddirWhere_other none]
    exact ⟨rfl, anchored⟩
  | cons ent through =>
    obtain ⟨dev, mem, below⟩ := anchored
    by_cases root : node = ent.fsRoot
    · subst root
      have stays : Spot.up ent.fsRoot (ent :: through) = ⟨ent.mountPoint, through⟩ :=
        (if_pos rfl).trans (below.up_other fun other mem' same => tidy.apart ent mem other mem' same.symm)
      rw [stays, tidy.finddirWhere_root mem dots]
      exact ⟨rfl, below⟩
    · have none : ∀ other ∈ env.mtab, other.fsRoot ≠ node := fun other mem' same => by
        have equal : other = ent := eq_of_key tidy.roots mem' mem ((congrArg FsNode.dev same).trans dev)
        exact root (same.symm.trans (congrArg MtabEntry.fsRoot equal))
      have anchored : Anchored env node (ent :: through) := ⟨dev, mem, below⟩
      rw [anchored.up_other none, finddirWhere_other none]
      exact ⟨rfl, anchored⟩

end Walk

/-! ### Runs -/

section Keep

variable {env : FsEnv} {mtab : List MtabEntry} {front back : List MtabEntry} {device dir root : FsNode}

/-- Fewer mounts. -/
theorem Tidy.sublist (tidy : Tidy env mtab) (fewer : List.Sublist front mtab) : Tidy env front where
  devices := tidy.devices.sublist (fewer.map _)
  points := tidy.points.sublist (fewer.map _)
  roots := tidy.roots.sublist (fewer.map _)
  inside ent mem := tidy.inside ent (fewer.subset mem)
  apart ent mem other mem' := tidy.apart ent (fewer.subset mem) other (fewer.subset mem')

/-- **One more mount**, wherever it is in the table. -/
theorem Tidy.put (tidy : Tidy env (front ++ back)) (fresh : FreshMount env (front ++ back) device dir root) :
    Tidy env (front ++ ⟨device, dir, root⟩ :: back) := by
  have keys : ∀ {κ : Type} (key : MtabEntry → κ), ((front ++ back).map key).Nodup →
      (∀ ent ∈ front ++ back, key ent ≠ key ⟨device, dir, root⟩) →
      ((front ++ ⟨device, dir, root⟩ :: back).map key).Nodup := fun key distinct new => by
    rw [(List.perm_middle.map key).nodup_iff, List.map_cons, List.nodup_cons]
    refine ⟨fun mem => ?_, distinct⟩
    obtain ⟨ent, inside, same⟩ := List.mem_map.mp mem
    exact new ent inside same
  have cases : ∀ ent ∈ front ++ ⟨device, dir, root⟩ :: back, ent = ⟨device, dir, root⟩ ∨
      ent ∈ front ++ back := fun ent mem =>
    List.mem_cons.mp (List.perm_middle.mem_iff.mp mem)
  refine ⟨keys _ tidy.devices fresh.newDevice, keys _ tidy.points fun ent mem => (fresh.newPoint.2.2 ent mem).1,
    keys _ tidy.roots fun ent mem => (fresh.newRoot.2 ent mem).1, fun ent mem => ?_, fun ent mem other mem' => ?_⟩
  · rcases cases ent mem with rfl | old
    · exact ⟨fresh.newRoot.1, fresh.newPoint.1⟩
    · exact tidy.inside ent old
  · rcases cases ent mem with rfl | old
    · rcases cases other mem' with rfl | old'
      · exact fresh.newPoint.2.1
      · exact (fresh.newPoint.2.2 other old').2.symm
    · rcases cases other mem' with rfl | old'
      · exact (fresh.newRoot.2 ent old).2
      · exact tidy.apart ent old other old'

end Keep

/-- A call, with the working directory of the process that makes it. -/
inductive MountOp
  | mount (cwd : FsNode) (deviceFile mountPoint : List Word)
  | umount (cwd : FsNode) (deviceFile : List Word)

namespace MountOp

variable (drv : BlkDriver δ) (env : FsEnv) (data : BlockKey → BlockData) (mtab : Mtab)

/-- The call. -/
def run : MountOp → MountState δ → Except Fault (MountState δ)
  | mount cwd deviceFile mountPoint => kMount drv env cwd deviceFile mountPoint
  | umount cwd deviceFile => kUmount drv env cwd deviceFile

/-- The blocks of the entries that its paths come to are there. -/
def Present : MountOp → Prop
  | mount cwd deviceFile mountPoint =>
    WalkPresent (env.seeing cwd mtab) data deviceFile (startOf (env.seeing cwd mtab) deviceFile) ∧
      WalkPresent (env.seeing cwd mtab) data mountPoint (startOf (env.seeing cwd mtab) mountPoint)
  | umount cwd deviceFile =>
    WalkPresent (env.seeing cwd mtab) data deviceFile (startOf (env.seeing cwd mtab) deviceFile)

/-- A mount, where both paths lead to a node, meets no other. -/
def Fresh : MountOp → Prop
  | mount cwd deviceFile mountPoint => ∀ device dir, Leads (env.seeing cwd mtab) data deviceFile device →
    Leads (env.seeing cwd mtab) data mountPoint dir → FreshMount env mtab.elements device dir (rootOf data device)
  | umount _ _ => True

/-- A call in some state of the disks and the cache: what it makes of the table. -/
def Called (mtab : Mtab) (op : MountOp) (mtab' : Mtab) : Prop :=
  ∃ data blk t, Coherent drv blk data ∧ op.Present env data mtab ∧ op.run drv env ⟨blk, mtab⟩ = .ok t ∧ t.mtab = mtab'

end MountOp

section Runs

variable {drv : BlkDriver δ} {env : FsEnv} {mtab mtab' : Mtab}

theorem Tidy.seeing (tidy : Tidy env mtab.elements) (cwd : FsNode) :
    Tidy (env.seeing cwd mtab) (env.seeing cwd mtab).mtab :=
  ⟨tidy.devices, tidy.points, tidy.roots, tidy.inside, tidy.apart⟩

end Runs

/-! ### One device, two directories -/

section Disk

variable {c n : Word} {node : FsNode}

end Disk

end RlCpu.Kernel
