/-
**The tree of nodes on a device.**

`TreeOk a d live raw`: the nodes `live` of device `d` make a well-formed filesystem. Each is a
well-formed file, they share no block, the slots below each size have blocks, and the entries of each
directory name nodes in `live`: dots name directories, every other entry names a node of its own.
Directories in `raw` are still being written, and nothing is said about their entries.

* `SameNode`: two views agree on a node; what is said about it depends on nothing else.
* `TreeOk.restrict`, `TreeOk.same`: the nodes that are left are as they were.
* `TreeOk.settle`: a directory that was being written is finished.
* `TreeOk.add`: a new node that nothing refers to yet.
-/

import RlCpu.Kernel.FileContents
import RlCpu.Kernel.RlfsTree

namespace RlCpu.Kernel

open RlCpu.Lib

/-! ### Nodes and entries -/

/-- `st_mode` of node `n`. -/
def nodeMode (data : BlockKey → BlockData) (d n : Word) : Word := (data (d, n)).word 0

/-- Node `n` is a directory. -/
def IsDir (data : BlockKey → BlockData) (d n : Word) : Prop := sIsdir (nodeMode data d n) = true

/-- Node `n` is a device. -/
def IsDev (data : BlockKey → BlockData) (d n : Word) : Prop :=
  (sIschr (nodeMode data d n) || sIsblk (nodeMode data d n)) = true

/-- The 32 words of entry `i` of directory `n`. -/
def entryWords (data : BlockKey → BlockData) (d n : Word) (i : Nat) : List Word :=
  wordsAt data d n (i * 32) 32

/-- The node that entry `i` of directory `n` names. -/
def entryIdx (data : BlockKey → BlockData) (d n : Word) (i : Nat) : Word :=
  wordAt data d n (i * 32 + 31)

/-- The number of entries of directory `n`. -/
def entryCount (data : BlockKey → BlockData) (d n : Word) : Nat := fileSize data d n / 32

/-- `.` or `..` -/
def IsDots (words : List Word) : Prop :=
  strcmpEq words [dot, 0] = true ∨ strcmpEq words [dot, dot, 0] = true

instance (words : List Word) : Decidable (IsDots words) := inferInstanceAs (Decidable (_ ∨ _))

/-- Entry `i` of directory `n` names node `x`: it is neither deleted nor one of the dots. -/
def Names (data : BlockKey → BlockData) (d n : Word) (i : Nat) (x : Word) : Prop :=
  i < entryCount data d n ∧ entryIdx data d n i = x ∧ x ≠ 0 ∧ ¬ IsDots (entryWords data d n i)

/-- A directory: whole entries, one block ahead, dots first. Deleted entries have no name, dots name
directories, and every other entry names a node other than the root. -/
structure DirOk (a : DiskView) (d : Word) (live : Set Word) (n : Word) : Prop where
  whole : fileSize a.data d n % 32 = 0
  ahead : blockAt a.data d n (fileSize a.data d n / 256) ≠ 0
  first : 0 < entryCount a.data d n ∧ strcmpEq (entryWords a.data d n 0) [dot, 0] = true
  second : 1 < entryCount a.data d n ∧ strcmpEq (entryWords a.data d n 1) [dot, dot, 0] = true
  deleted : ∀ i < entryCount a.data d n, entryIdx a.data d n i = 0 →
    wordAt a.data d n (i * 32) = 0
  dots : ∀ i < entryCount a.data d n, IsDots (entryWords a.data d n i) →
    entryIdx a.data d n i ∈ live ∧ IsDir a.data d (entryIdx a.data d n i)
  named : ∀ i x, Names a.data d n i x → x ∈ live ∧ x ≠ rootIdx

/-- One node of the tree. -/
structure NodeOk (a : DiskView) (d : Word) (live raw : Set Word) (n : Word) : Prop where
  file : FileOk a d n
  hard : (d, n) ∉ a.soft
  device : IsDev a.data d n → fileSize a.data d n < 2 ^ 16 ∧ ∀ p, ref a.data d n p = 0
  bounded : ¬ IsDev a.data d n → fileSize a.data d n < maxFileSize
  mapped : ¬ IsDev a.data d n → Mapped a d n 0 (fileSize a.data d n)
  dir : IsDir a.data d n → n ∉ raw → DirOk a d live n

/-- **A well-formed filesystem** with the nodes `live`. -/
structure TreeOk (a : DiskView) (d : Word) (live raw : Set Word) : Prop where
  vol : VolumeOk a d
  root : rootIdx ∈ live
  rootDir : IsDir a.data d rootIdx
  node : ∀ n ∈ live, NodeOk a d live raw n
  apart : ∀ n ∈ live, ∀ m ∈ live, m ≠ n → Apart a.data d n m
  /-- No node is named twice. -/
  names : ∀ n ∈ live, n ∉ raw → IsDir a.data d n → ∀ m ∈ live, m ∉ raw → IsDir a.data d m →
    ∀ i j x, Names a.data d n i x → Names a.data d m j x → n = m ∧ i = j

/-- A directory is no device. -/
theorem IsDir.not_isDev {data : BlockKey → BlockData} {d n : Word} (dir : IsDir data d n) :
    ¬ IsDev data d n := by
  unfold IsDir sIsdir at dir
  unfold IsDev sIschr sIsblk
  rw [beq_iff_eq] at dir
  rw [dir]
  decide

theorem Apart.symm {data : BlockKey → BlockData} {d n m : Word} (apart : Apart data d n m) :
    Apart data d m n where
  ne := apart.ne.symm
  blocks p q here same := apart.blocks q p (same ▸ here) same.symm
  node := apart.node'
  node' := apart.node

namespace NodeOk

variable {a : DiskView} {d n : Word} {live raw : Set Word}

/-- The slots below the size of a directory. -/
theorem dirMapped (node : NodeOk a d live raw n) (dir : IsDir a.data d n) :
    Mapped a d n 0 (fileSize a.data d n) := node.mapped dir.not_isDev

theorem congr_live {live' raw' : Set Word} (node : NodeOk a d live raw n)
    (dir : IsDir a.data d n → n ∉ raw' → DirOk a d live' n) : NodeOk a d live' raw' n where
  file := node.file
  hard := node.hard
  device := node.device
  bounded := node.bounded
  mapped := node.mapped
  dir := dir

end NodeOk

/-! ### What a node depends on -/

/-- Views `a` and `b` agree on node `n`: its block, its references, and its blocks below the size. -/
structure SameNode (a b : DiskView) (d n : Word) : Prop where
  block : b.data (d, n) = a.data (d, n)
  refs : ∀ p, ref b.data d n p = ref a.data d n p
  words : ∀ p < fileSize a.data d n, blockAt a.data d n (p / 256) ≠ 0 →
    wordAt b.data d n p = wordAt a.data d n p
  marks : ∀ p, ref a.data d n p ≠ 0 → isMarked b.data d (ref a.data d n p) = true
  mark : isMarked b.data d n = true
  soft : (d, n) ∈ b.soft → (d, n) ∈ a.soft
  softRefs : ∀ p, (d, ref a.data d n p) ∈ b.soft → ref a.data d n p ≠ 0 →
    (d, ref a.data d n p) ∈ a.soft

namespace SameNode

variable {a b : DiskView} {d n : Word}

/-- A node is as it was where its block and the blocks it refers to are. -/
theorem of_data (node : b.data (d, n) = a.data (d, n))
    (blocks : ∀ p, ref a.data d n p ≠ 0 →
      b.data (d, ref a.data d n p) = a.data (d, ref a.data d n p))
    (mark : isMarked b.data d n = true)
    (marks : ∀ p, ref a.data d n p ≠ 0 → isMarked b.data d (ref a.data d n p) = true)
    (soft : ∀ c, c = n ∨ (∃ p, ref a.data d n p = c ∧ c ≠ 0) → (d, c) ∈ b.soft → (d, c) ∈ a.soft) :
    SameNode a b d n := by
  have refs : ∀ p, ref b.data d n p = ref a.data d n p :=
    ref_congr (fun i _ => by rw [node]) fun j here => blocks (.index j) here
  refine ⟨node, refs, fun p _ here => ?_, marks, mark, soft n (Or.inl rfl),
    fun p mem here => soft _ (Or.inr ⟨p, rfl, here⟩) mem⟩
  have block : blockAt b.data d n (p / 256) = blockAt a.data d n (p / 256) := refs (.data _)
  have same := blocks (.data (p / 256)) here
  unfold wordAt
  rw [block]
  exact congrArg (fun data => BlockData.word data (p % 256)) same

theorem size (same : SameNode a b d n) : fileSize b.data d n = fileSize a.data d n := by
  unfold fileSize
  rw [same.block]

theorem mode (same : SameNode a b d n) : nodeMode b.data d n = nodeMode a.data d n := by
  unfold nodeMode
  rw [same.block]

theorem isDir (same : SameNode a b d n) : IsDir b.data d n ↔ IsDir a.data d n := by
  unfold IsDir
  rw [same.mode]

theorem isDev (same : SameNode a b d n) : IsDev b.data d n ↔ IsDev a.data d n := by
  unfold IsDev
  rw [same.mode]

theorem count (same : SameNode a b d n) : entryCount b.data d n = entryCount a.data d n := by
  unfold entryCount
  rw [same.size]

theorem file (same : SameNode a b d n) (file : FileOk a d n) : FileOk b d n where
  high := file.high
  marked := same.mark
  refs p here := by
    rw [same.refs] at here ⊢
    exact ⟨(file.refs p here).1, same.marks p here, (file.refs p here).2.2⟩
  inj p q equal here := by
    rw [same.refs] at here
    rw [same.refs, same.refs] at equal
    exact file.inj p q equal here
  index j here mem := by
    have equal : indexAt b.data d n j = indexAt a.data d n j := same.refs (.index j)
    rw [equal] at here mem
    exact file.index j here (same.softRefs (.index j) mem here)

theorem mapped (same : SameNode a b d n) (mapped : Mapped a d n 0 (fileSize a.data d n)) :
    Mapped b d n 0 (fileSize b.data d n) := by
  rw [same.size]
  intro p low high
  obtain ⟨inRange, here, hard⟩ := mapped p low high
  have equal : blockAt b.data d n (p / 256) = blockAt a.data d n (p / 256) := same.refs (.data _)
  rw [equal]
  exact ⟨inRange, here, fun mem => hard (same.softRefs (.data _) mem here)⟩

section Entries

variable (same : SameNode a b d n) (mapped : Mapped a d n 0 (fileSize a.data d n))
include same mapped

theorem wordAt {p : Nat} (low : p < fileSize a.data d n) :
    Kernel.wordAt b.data d n p = Kernel.wordAt a.data d n p :=
  same.words p low (mapped p (Nat.zero_le _) (by omega)).2.1

theorem entryWords {i : Nat} (low : i < entryCount a.data d n) :
    Kernel.entryWords b.data d n i = Kernel.entryWords a.data d n i := by
  unfold entryCount at low
  refine List.map_congr_left fun j mem => same.wordAt mapped ?_
  have small := List.mem_range.mp mem
  omega

theorem entryIdx {i : Nat} (low : i < entryCount a.data d n) :
    Kernel.entryIdx b.data d n i = Kernel.entryIdx a.data d n i := by
  unfold entryCount at low
  exact same.wordAt mapped (by omega)

theorem names {i : Nat} {x : Word} : Names b.data d n i x ↔ Names a.data d n i x := by
  unfold Names
  rw [same.count]
  refine and_congr_right fun low => ?_
  rw [same.entryIdx mapped low, same.entryWords mapped low]

/-- A directory stays one, if what it names is still there. -/
theorem dirOk {live live' : Set Word} (ok : DirOk a d live n)
    (dots : ∀ i < entryCount a.data d n, IsDots (Kernel.entryWords a.data d n i) →
      Kernel.entryIdx a.data d n i ∈ live' ∧ IsDir b.data d (Kernel.entryIdx a.data d n i))
    (named : ∀ i x, Names a.data d n i x → x ∈ live') : DirOk b d live' n where
  whole := by
    rw [same.size]
    exact ok.whole
  ahead := by
    rw [same.size]
    exact fun zero => ok.ahead ((same.refs (.data _)).symm.trans zero)
  first := by
    rw [same.count, same.entryWords mapped ok.first.1]
    exact ok.first
  second := by
    rw [same.count, same.entryWords mapped ok.second.1]
    exact ok.second
  deleted i low zero := by
    rw [same.count] at low
    rw [same.entryIdx mapped low] at zero
    have inside : i * 32 < fileSize a.data d n := by
      unfold entryCount at low
      omega
    rw [same.wordAt mapped inside]
    exact ok.deleted i low zero
  dots i low here := by
    rw [same.count] at low
    rw [same.entryWords mapped low] at here
    rw [same.entryIdx mapped low]
    exact dots i low here
  named i x here :=
    ⟨named i x ((same.names mapped).mp here), (ok.named i x ((same.names mapped).mp here)).2⟩

end Entries

/-- A node stays well formed where its own blocks are as they were. -/
theorem nodeOk {live live' raw raw' : Set Word} (same : SameNode a b d n)
    (node : NodeOk a d live raw n)
    (dir : IsDir a.data d n → n ∉ raw' → DirOk b d live' n) : NodeOk b d live' raw' n where
  file := same.file node.file
  hard mem := node.hard (same.soft mem)
  device dev := by
    obtain ⟨small, empty⟩ := node.device (same.isDev.mp dev)
    rw [same.size]
    exact ⟨small, fun p => (same.refs p).trans (empty p)⟩
  bounded plain := by
    rw [same.size]
    exact node.bounded fun dev => plain (same.isDev.mpr dev)
  mapped plain := same.mapped (node.mapped fun dev => plain (same.isDev.mpr dev))
  dir here := dir (same.isDir.mp here)

/-- Nodes that are as they were are as far apart. -/
theorem apart {m : Word} (same : SameNode a b d n) (same' : SameNode a b d m)
    (apart : Apart a.data d n m) : Apart b.data d n m where
  ne := apart.ne
  blocks p q := by
    rw [same.refs, same'.refs]
    exact apart.blocks p q
  node p := by
    rw [same.refs]
    exact apart.node p
  node' q := by
    rw [same'.refs]
    exact apart.node' q

end SameNode

/-! ### Changes of the tree -/

namespace TreeOk

variable {a b : DiskView} {d n : Word} {live live' raw raw' : Set Word}

/-- **Nodes left alone, and some of them gone.** -/
theorem restrict (tree : TreeOk a d live raw) (vol : VolumeOk b d) (sub : live' ⊆ live)
    (root : rootIdx ∈ live') (same : ∀ n ∈ live', SameNode a b d n)
    (finished : ∀ n ∈ live', n ∉ raw' → n ∉ raw)
    (named : ∀ n ∈ live', n ∉ raw' → IsDir a.data d n → ∀ i x, Names a.data d n i x → x ∈ live')
    (dots : ∀ n ∈ live', IsDir a.data d n → ∀ m ∈ live, IsDir a.data d m → m ∈ live') :
    TreeOk b d live' raw' where
  vol := vol
  root := root
  rootDir := (same _ root).isDir.mpr tree.rootDir
  node n mem := (same n mem).nodeOk (tree.node n (sub mem)) fun dir done => by
    have ok := (tree.node n (sub mem)).dir dir (finished n mem done)
    refine (same n mem).dirOk ((tree.node n (sub mem)).dirMapped dir) ok (fun i low here => ?_)
      (named n mem done dir)
    obtain ⟨inside, isDir⟩ := ok.dots i low here
    have still := dots n mem dir _ inside isDir
    exact ⟨still, (same _ still).isDir.mpr isDir⟩
  apart n mem m mem' ne :=
    (same n mem).apart (same m mem') (tree.apart n (sub mem) m (sub mem') ne)
  names n mem done dir m mem' done' dir' i j x here here' := by
    have dirA := (same n mem).isDir.mp dir
    have dirB := (same m mem').isDir.mp dir'
    refine tree.names n (sub mem) (finished n mem done) dirA m (sub mem') (finished m mem' done')
      dirB i j x ?_ ?_
    · exact ((same n mem).names ((tree.node n (sub mem)).dirMapped dirA)).mp here
    · exact ((same m mem').names ((tree.node m (sub mem')).dirMapped dirB)).mp here'

/-- **Every node left alone.** -/
theorem same (tree : TreeOk a d live raw) (vol : VolumeOk b d)
    (same : ∀ n ∈ live, SameNode a b d n) : TreeOk b d live raw :=
  tree.restrict vol le_rfl tree.root same (fun _ _ done => done)
    (fun n mem done dir i x here => (((tree.node n mem).dir dir done).named i x here).1)
    fun _ _ _ _ mem _ => mem

/-- **A directory that was being written is finished.** -/
theorem settle (tree : TreeOk a d live (insert n raw)) (mem : n ∈ live)
    (ok : IsDir a.data d n → DirOk a d live n)
    (names : IsDir a.data d n → ∀ m ∈ live, m ∉ raw → IsDir a.data d m →
      ∀ i j x, Names a.data d n i x → Names a.data d m j x → n = m ∧ i = j) :
    TreeOk a d live raw where
  vol := tree.vol
  root := tree.root
  rootDir := tree.rootDir
  node m mem' := (tree.node m mem').congr_live fun dir done => by
    by_cases here : m = n
    · subst here
      exact ok dir
    · exact (tree.node m mem').dir dir fun inside => inside.elim here done
  apart := tree.apart
  names m mem' done dir m' mem'' done' dir' i j x here here' := by
    by_cases first : m = n
    · subst first
      exact names dir m' mem'' done' dir' i j x here here'
    by_cases second : m' = n
    · subst second
      have both := names dir' m mem' done dir j i x here' here
      exact ⟨both.1.symm, both.2.symm⟩
    · exact tree.names m mem' (fun inside => inside.elim first done) dir m' mem''
        (fun inside => inside.elim second done') dir' i j x here here'

/-- A file needs no finishing. -/
theorem settle_plain (tree : TreeOk a d live (insert n raw)) (mem : n ∈ live)
    (plain : ¬ IsDir a.data d n) : TreeOk a d live raw :=
  tree.settle mem (fun dir => absurd dir plain) fun dir => absurd dir plain

/-- **A new node**, that nothing refers to yet. -/
theorem add (tree : TreeOk a d live raw) (fresh : n ∉ live)
    (node : NodeOk a d (insert n live) raw' n) (more : raw ⊆ raw') (unfinished : IsDir a.data d n → n ∈ raw')
    (empty : ∀ p, ref a.data d n p = 0) (away : ∀ m ∈ live, ∀ q, ref a.data d m q ≠ n) :
    TreeOk a d (insert n live) raw' := by
  have ne : ∀ m ∈ live, m ≠ n := fun m mem same => fresh (same ▸ mem)
  have apart : ∀ m ∈ live, Apart a.data d n m := fun m mem =>
    ⟨ne m mem, fun p q here => absurd (empty p) here, fun p same => ne_zero_of_high
      (tree.node m mem).file.high (same.symm.trans (empty p)), away m mem⟩
  refine ⟨tree.vol, Set.mem_insert_of_mem n tree.root, tree.rootDir, fun m mem => ?_,
    fun m mem m' mem' differ => ?_, fun m mem done dir m' mem' done' dir' => ?_⟩
  · rcases mem with rfl | mem
    · exact node
    · refine (tree.node m mem).congr_live fun dir done => ?_
      have ok := (tree.node m mem).dir dir fun inside => done (more inside)
      exact ⟨ok.whole, ok.ahead, ok.first, ok.second, ok.deleted, fun i low here =>
        (ok.dots i low here).imp (Set.mem_insert_of_mem n) id, fun i x here =>
        (ok.named i x here).imp (Set.mem_insert_of_mem n) id⟩
  · rcases mem with rfl | mem <;> rcases mem' with rfl | mem'
    · exact absurd rfl differ
    · exact apart m' mem'
    · exact (apart m mem).symm
    · exact tree.apart m mem m' mem' differ
  · rcases mem with rfl | mem
    · exact absurd (unfinished dir) done
    rcases mem' with rfl | mem'
    · exact absurd (unfinished dir') done'
    · exact tree.names m mem (fun inside => done (more inside)) dir m' mem'
        (fun inside => done' (more inside)) dir'

end TreeOk

end RlCpu.Kernel
