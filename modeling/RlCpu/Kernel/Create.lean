/-
**`fs_create` in a well-formed tree.**

`Created a b d live n x flags`: between the views `a` and `b` directory `n` got an entry for the new
node `x`, whose bit was clear. A new directory counts as unfinished until its dots are written.

* `wp_fsCreate`: the function, for a name that the directory does not have.
* `newNode_ref`: a new node refers to nothing.
-/

import RlCpu.Kernel.Lookup

namespace RlCpu.Kernel

open RlCpu.Lib

variable {δ : Type} {drv : BlkDriver δ} {a b : DiskView} {d n x flags : Word} {live raw : Set Word}

/-! ### A new node -/

/-- The block of a new node. -/
abbrev newNode (flags : Word) : BlockData := BlockData.zero.put 0 flags

theorem newNode_word (flags : Word) {i : Nat} (ne : i ≠ 0) : (newNode flags).word i = 0 := by
  rw [BlockData.word_put_ne _ _ ne]
  unfold BlockData.word
  split <;> rfl

theorem newNode_mode (flags : Word) : (newNode flags).word 0 = flags :=
  BlockData.word_put_self _ _ (by decide)

theorem newNode_size (flags : Word) : (newNode flags).size = 0 := by
  unfold BlockData.size
  rw [newNode_word _ (by decide), newNode_word _ (by decide)]
  rfl

/-- **A new node refers to nothing.** -/
theorem newNode_ref {data : BlockKey → BlockData} (node : data (d, x) = newNode flags) (p : Place) :
    ref data d x p = 0 := by
  have none : ∀ i, i ≠ 0 → (data (d, x)).word i = 0 := fun i ne => by
    rw [node]
    exact newNode_word flags ne
  cases p with
  | index j => exact none _ (by omega)
  | data k =>
    show blockAt data d x k = 0
    unfold blockAt
    split
    case isTrue => exact none _ (by omega)
    case isFalse => exact if_pos (none _ (by omega))

/-- The new node, if it is a directory: its dots are not written yet. -/
def unfinished (x flags : Word) : Set Word := {m | m = x ∧ sIsdir flags = true}

theorem NodeOk.new (node : b.data (d, x) = newNode flags) (high : 34 ≤ x.toNat)
    (marked : isMarked b.data d x = true) (hard : (d, x) ∉ b.soft) :
    NodeOk b d live (unfinished x flags) x := by
  have none := newNode_ref node
  have size : fileSize b.data d x = 0 := by
    unfold fileSize
    rw [node]
    exact newNode_size flags
  refine ⟨⟨high, marked, fun p here => absurd (none p) here, fun p q _ here => absurd (none p) here,
    fun j here => absurd (none (.index j)) here⟩, hard, fun _ => ⟨?_, none⟩, fun _ => ?_, fun _ p _ low => ?_,
    fun dir done => ?_⟩
  · rw [size]
    decide
  · rw [size]
    decide
  · rw [size] at low
    exact absurd low (Nat.not_lt_zero p)
  · refine absurd ⟨rfl, ?_⟩ done
    unfold IsDir nodeMode at dir
    rwa [node, newNode_mode] at dir

/-! ### The bit of a new node -/

/-- Setting a bit leaves a node as it is. -/
theorem FileOk.mark_same (file : FileOk a d n) (x : Word) : SameNode a (a.mark d x true) d n := by
  have more : ∀ c, isMarked a.data d c = true → isMarked (a.mark d x true).data d c = true := by
    intro c set
    rw [DiskView.isMarked_mark]
    split
    · rfl
    · exact set
  exact SameNode.of_data (DiskView.mark_data_ne _ _ _ _ (file.node_ne_bit x))
    (fun p here => DiskView.mark_data_ne _ _ _ _ (file.ref_ne_bit here x)) (more _ file.marked)
    (fun p here => more _ (file.refs p here).2.1) fun _ _ soft => soft

/-- Setting a bit leaves the tree as it is. -/
theorem TreeOk.mark (tree : TreeOk a d live raw) (x : Word) :
    TreeOk (a.mark d x true) d live raw := by
  refine tree.same ⟨fun c low => ?_, tree.vol.bitmap⟩ fun m mem => (tree.node m mem).file.mark_same x
  rw [DiskView.isMarked_mark]
  split
  · rfl
  · exact tree.vol.reserved c low

/-! ### The entry of a new node -/

/-- The words `fs_create` writes into the directory. -/
def entryOf (name : CString) (x : Word) (p : Nat) : Word := if p < 31 then name.mem p else x

theorem strcmpEq_dot {u v : Word} {rest : List Word} (same : strcmpEq (u :: v :: rest) [dot, 0] = true) :
    u = dot ∧ v = 0 := by
  obtain ⟨rfl, zero | later⟩ := strcmpEq_cons.mp same
  · exact absurd zero (by decide)
  · exact ⟨rfl, (strcmpEq_cons.mp later).1⟩

theorem strcmpEq_dotDot {u v w : Word} {rest : List Word}
    (same : strcmpEq (u :: v :: w :: rest) [dot, dot, 0] = true) : u = dot ∧ v = dot ∧ w = 0 := by
  obtain ⟨rfl, zero | later⟩ := strcmpEq_cons.mp same
  · exact absurd zero (by decide)
  · exact ⟨rfl, strcmpEq_dot later⟩

/-- A name that is not one of the dots is not read as one. -/
theorem not_isDots_entryOf {name : CString} (first : name.words ≠ [dot, 0])
    (second : name.words ≠ [dot, dot, 0]) : ¬ IsDots ((List.range 32).map (entryOf name x)) := by
  have split : (List.range 32).map (entryOf name x) = name.mem 0 :: name.mem 1 :: name.mem 2 ::
      ((List.range 29).map fun i => entryOf name x (i + 3)) := rfl
  rw [split]
  obtain ⟨chars, nonzero, after⟩ := name
  rintro (here | here)
  · obtain ⟨zeroth, next⟩ := strcmpEq_dot here
    match chars, nonzero with
    | [], _ => cases zeroth
    | [c], _ =>
      exact first (congrArg (fun c => [c, 0]) zeroth)
    | c :: e :: rest, nonzero =>
      exact nonzero e (List.mem_cons_of_mem c List.mem_cons_self) next
  · obtain ⟨zeroth, next, last⟩ := strcmpEq_dotDot here
    match chars, nonzero with
    | [], _ => cases zeroth
    | [c], _ => cases next
    | [c, e], _ =>
      exact second (congrArg₂ (fun c e => [c, e, 0]) zeroth next)
    | c :: e :: g :: rest, nonzero =>
      exact nonzero g (List.mem_cons_of_mem c (List.mem_cons_of_mem e List.mem_cons_self)) last

/-- Block `x` is marked and nothing in the tree refers to it; an entry `buf` for it was written at the
end of directory `n` (from view `a` to view `b`), and then its node (from `b` to `e`). -/
structure NewEntry (a b e : DiskView) (d : Word) (live : Set Word) (n x flags : Word)
    (buf : Nat → Word) : Prop where
  tree : TreeOk a d live ∅
  mem : n ∈ live
  dir : IsDir a.data d n
  fits : fileSize a.data d n + 32 < maxFileSize
  written : FileWritten a b d n (Covers 0 (fileSize a.data d n)) (entryCount a.data d n * 32) 32 buf
  last : buf 31 = x
  notDots : ¬ IsDots ((List.range 32).map buf)
  marked : isMarked a.data d x = true
  high : 35 ≤ x.toNat
  fresh : x ∉ live
  away : ∀ m ∈ live, ∀ p, ref a.data d m p ≠ x
  others : ∀ key, key ≠ (d, x) → e.data key = b.data key
  node : e.data (d, x) = newNode flags
  soft : e.soft = b.soft \ {(d, x)}

namespace NewEntry

variable {e : DiskView} {buf : Nat → Word} (new : NewEntry a b e d live n x flags buf)
include new

theorem nonzero : x ≠ 0 := ne_zero_of_high (by have high := new.high; omega)

theorem dirOk : DirOk a d live n := (new.tree.node n new.mem).dir new.dir fun raw => raw

theorem count : entryCount a.data d n * 32 = fileSize a.data d n := by
  have whole := new.dirOk.whole
  unfold entryCount
  omega

/-- The other nodes, before the new one is written. -/
theorem sibling {m : Word} (mem : m ∈ live) (ne : m ≠ n) : SameNode a b d m :=
  new.written.written.grown.sameNode (new.tree.node m mem).file (new.tree.apart n new.mem m mem ne)

theorem treeAfter : TreeOk b d live (insert n ∅) :=
  new.tree.grow new.written new.mem new.dir.not_isDev new.count.le (new.count ▸ new.fits)

/-- The grown directory does not refer to the new node either. -/
theorem awayAfter {m : Word} (mem : m ∈ live) (p : Place) : ref b.data d m p ≠ x := by
  intro same
  by_cases here : m = n
  · subst here
    by_cases old : ref a.data d m p = 0
    · have clear := new.written.written.grown.fresh p old (same ▸ new.nonzero)
      rw [same, new.marked] at clear
      cases clear
    · rw [new.written.written.grown.kept p old] at same
      exact new.away m mem p same
  · rw [(new.sibling mem here).refs] at same
    exact new.away m mem p same

theorem bits (c : Word) : isMarked e.data d c = isMarked b.data d c :=
  isMarked_congr (fun c => new.others _ (key_ne_bit (by have high := new.high; omega) c).symm) c

/-- Writing the new node leaves the others alone. -/
theorem same {m : Word} (mem : m ∈ live) : SameNode b e d m := by
  have file := (new.treeAfter.node m mem).file
  refine SameNode.of_data (new.others _ fun equal => new.fresh ?_)
    (fun p here => new.others _ fun equal => ?_) ((new.bits m).trans file.marked)
    (fun p here => (new.bits _).trans (file.refs p here).2.1)
    fun _ _ inside => (new.soft ▸ inside).1
  · have here : m = x := congrArg Prod.snd equal
    exact here ▸ mem
  · exact new.awayAfter mem p (congrArg Prod.snd equal)

/-- The new node as a directory is an unfinished one. -/
theorem isDir_new (isDir : IsDir e.data d x) : x ∈ unfinished x flags := by
  unfold IsDir nodeMode at isDir
  rw [new.node, newNode_mode] at isDir
  exact ⟨rfl, isDir⟩

/-- The tree with the new node, but for directory `n`. -/
theorem treeNew : TreeOk e d (insert x live) (insert n (unfinished x flags)) := by
  have high := new.high
  have grown := new.written.written.grown
  have before : TreeOk e d live (insert n ∅) := new.treeAfter.same
    ⟨fun c low => (new.bits c).trans (grown.vol.reserved c low),
      fun c inside => grown.vol.bitmap c (new.soft ▸ inside).1⟩ fun m mem => new.same mem
  have more : unfinished x flags ⊆ insert n (unfinished x flags) := Set.subset_insert _ _
  have node : NodeOk e d (insert x live) (unfinished x flags) x := by
    refine NodeOk.new new.node (by omega) ((new.bits x).trans (grown.marked_mono new.marked))
      fun inside => ?_
    exact (new.soft ▸ inside).2 rfl
  refine before.add new.fresh
    (node.congr_live fun isDir done => absurd (more (new.isDir_new isDir)) done)
    (Set.insert_subset_insert (Set.empty_subset _)) (fun isDir => more (new.isDir_new isDir))
    (newNode_ref new.node) fun m mem q => ?_
  rw [(new.same mem).refs]
  exact new.awayAfter mem q

theorem isDirAfter : IsDir b.data d n := new.written.isDir.mpr new.dir

theorem mappedAfter : Mapped b d n 0 (fileSize b.data d n) :=
  (new.treeAfter.node n new.mem).dirMapped new.isDirAfter

/-- What directory `n` names now. -/
theorem names_dir {j : Nat} {y : Word} : Names e.data d n j y ↔
    (j ≠ entryCount a.data d n ∧ Names a.data d n j y) ∨ (j = entryCount a.data d n ∧ y = x) := by
  rw [(new.same new.mem).names new.mappedAfter, new.written.names new.dirOk.whole le_rfl, new.last]
  refine or_congr_right (and_congr_right fun _ => ⟨fun all => all.1.symm, fun equal => ?_⟩)
  exact ⟨equal.symm, equal ▸ new.nonzero, new.notDots⟩

/-- What the other directories name. -/
theorem names_other {m : Word} (mem : m ∈ live) (ne : m ≠ n) (isDir : IsDir e.data d m) {j : Nat}
    {y : Word} (here : Names e.data d m j y) : IsDir a.data d m ∧ Names a.data d m j y := by
  have back := new.sibling mem ne
  have dirB := (new.same mem).isDir.mp isDir
  have dirA := back.isDir.mp dirB
  refine ⟨dirA, (back.names ((new.tree.node m mem).dirMapped dirA)).mp ?_⟩
  exact ((new.same mem).names ((new.treeAfter.node m mem).dirMapped dirB)).mp here

/-- What was named before is not the new node. -/
theorem named_ne {m : Word} (mem : m ∈ live) (isDir : IsDir a.data d m) {j : Nat}
    (here : Names a.data d m j x) : False :=
  new.fresh (((new.tree.node m mem).dir isDir fun raw => raw).named j x here).1

/-- Directory `n` is well formed with its new entry. -/
theorem dirOkNew : DirOk e d (insert x live) n := by
  have ok := new.dirOk
  have ne : x ≠ rootIdx := by
    rintro rfl
    exact absurd new.high (by decide)
  have dirs : ∀ m ∈ live, IsDir a.data d m → IsDir b.data d m := fun m mem isDir => by
    by_cases here : m = n
    · exact here ▸ new.isDirAfter
    · exact (new.sibling mem here).isDir.mpr isDir
  have dotsAfter : ∀ j < entryCount a.data d n, IsDots (entryWords a.data d n j) →
      entryIdx a.data d n j ∈ live ∧ IsDir b.data d (entryIdx a.data d n j) := fun j low dots =>
    (ok.dots j low dots).imp_right (dirs _ (ok.dots j low dots).1)
  have after : DirOk b d (insert x live) n := by
    refine ok.write new.written le_rfl ok.second.1
      (fun zero => absurd (new.last ▸ zero) new.nonzero) new.notDots (fun _ => ?_)
      (fun j low dots => (dotsAfter j low dots).imp_left (Set.mem_insert_of_mem x)) fun j y _ here =>
        Set.mem_insert_of_mem x (ok.named j y here).1
    rw [new.last]
    exact ⟨Set.mem_insert x live, ne⟩
  refine (new.same new.mem).dirOk new.mappedAfter after (fun j low dots => ?_) fun j y here =>
    (after.named j y here).1
  obtain ⟨old, dots', equal⟩ := new.written.dots_old ok.whole le_rfl new.notDots low dots
  obtain ⟨inside, isDir⟩ := dotsAfter j old dots'
  rw [equal]
  exact ⟨Set.mem_insert_of_mem x inside, (new.same inside).isDir.mpr isDir⟩

/-- **The tree with the new node.** -/
theorem link : TreeOk e d (insert x live) (unfinished x flags) := by
  refine new.treeNew.settle (Set.mem_insert_of_mem x new.mem) (fun _ => new.dirOkNew)
    fun _ m mem done isDir j k y here here' => ?_
  rcases mem with rfl | mem
  · exact absurd (new.isDir_new isDir) done
  by_cases equal : m = n
  · subst equal
    rcases new.names_dir.mp here with ⟨-, old⟩ | ⟨atEnd, fresh⟩ <;>
      rcases new.names_dir.mp here' with ⟨-, old'⟩ | ⟨atEnd', fresh'⟩
    · exact new.tree.names m mem (fun raw => raw) new.dir m mem (fun raw => raw) new.dir _ _ _ old old'
    · exact (new.named_ne mem new.dir (fresh' ▸ old)).elim
    · exact (new.named_ne mem new.dir (fresh ▸ old')).elim
    · exact ⟨rfl, atEnd.trans atEnd'.symm⟩
  · obtain ⟨dirA, old'⟩ := new.names_other mem equal isDir here'
    rcases new.names_dir.mp here with ⟨-, old⟩ | ⟨-, fresh⟩
    · exact new.tree.names n new.mem (fun raw => raw) new.dir m mem (fun raw => raw) dirA _ _ _ old old'
    · exact (new.named_ne mem dirA (fresh ▸ old')).elim

end NewEntry

/-! ### The function -/

/-- **Directory `n` got an entry for the new node `x`.** -/
structure Created (a b : DiskView) (d : Word) (live : Set Word) (n x flags : Word) : Prop where
  tree : TreeOk b d (insert x live) (unfinished x flags)
  clear : isMarked a.data d x = false
  fresh : x ∉ live
  dir : IsDir b.data d n
  node : b.data (d, x) = newNode flags
  pins : b.pins = a.pins
  soft : b.soft ⊆ a.soft
  named : Names b.data d n (entryCount a.data d n) x
  marks : ∀ c, isMarked b.data d c = true ↔ isMarked a.data d c = true ∨ c = x ∨
    ∃ p, ref a.data d n p = 0 ∧ ref b.data d n p = c ∧ c ≠ 0
  enough : freeBlocks a d ≤ freeBlocks b d + 3

/-- What `fs_create` did, from before the bit of the new node was set. -/
theorem NewEntry.created {c e : DiskView} {buf : Nat → Word}
    (new : NewEntry (a.mark d x true) c e d live n x flags buf) (clear : isMarked a.data d x = false)
    (file : FileOk a d n) (pins : e.pins = a.pins) : Created a e d live n x flags := by
  have same := file.mark_same x
  have grown := new.written.written.grown
  have count := same.count
  refine ⟨new.link, clear, new.fresh, (new.same new.mem).isDir.mpr new.isDirAfter, new.node, pins,
    fun key inside => ?_, ?_, fun f => ?_, ?_⟩
  · exact new.written.soft (new.soft ▸ inside).1
  · rw [← count]
    exact new.names_dir.mpr (Or.inr ⟨rfl, rfl⟩)
  · rw [new.bits, grown.marks, DiskView.isMarked_mark]
    simp only [(new.same new.mem).refs, same.refs]
    by_cases here : f = x <;> simp [here]
  · have taken := freeBlocks_mark clear
    have grew := grown.free_le
    have few : missing (a.mark d x true) d n (touched (entryCount (a.mark d x true).data d n * 32) 32) ≤ 2 :=
      missing_touched_le (new.count ▸ new.dirOk.ahead) (by decide)
    have rest := freeBlocks_congr new.bits
    omega

section Rules

variable {base : BlockPtr → Nat} {room : Nat} {ok : Fault → Prop}

theorem entryOf_words (name : CString) (x : Word) :
    (∀ j < 31, name.mem j = entryOf name x j) ∧ (∀ j < 1, x = entryOf name x (31 + j)) := by
  refine ⟨fun j low => (if_pos low).symm, fun j _ => (if_neg ?_).symm⟩
  exact fun clash => absurd clash (by omega)

/-- The entry of the new node and the node itself. -/
theorem wp_newEntry {name : CString} {r : FsRv × FsNode × FsNode}
    {post : FsRv × FsNode × FsNode → DiskView → Prop} (tree : TreeOk a d live ∅)
    (free : a.pins.length + 3 < room) (mem : n ∈ live) (dir : IsDir a.data d n)
    (fits : fileSize a.data d n + 32 < maxFileSize) (enough : 2 ≤ freeBlocks a d)
    (notDots : ¬ IsDots ((List.range 32).map (entryOf name x)))
    (marked : isMarked a.data d x = true) (high : 35 ≤ x.toNat) (fresh : x ∉ live)
    (away : ∀ m ∈ live, ∀ p, ref a.data d m p ≠ x)
    (rest : ∀ c e, NewEntry a c e d live n x flags (entryOf name x) → e.pins = a.pins → post r e) :
    wp (Shows drv base room) ok (do
      let _ ← fsWrite drv ⟨d, n⟩ (fileSize a.data d n) 31 name.mem
      let _ ← fsWrite drv ⟨d, n⟩ (fileSize a.data d n + 31) 1 fun _ => x
      let b ← BlkM.bread drv d x
      BlkM.setData b (BlockData.zero.put 0 flags)
      BlkM.setModified b
      BlkM.bfree b
      pure r) post a := by
  have node := tree.node n mem
  have dirOk := node.dir dir fun raw => raw
  have count : entryCount a.data d n * 32 = fileSize a.data d n := by
    have whole := dirOk.whole
    unfold entryCount
    omega
  have need := (missing_touched_le dirOk.ahead (show 32 ≤ 256 by decide)).trans enough
  have inRange : (fileSize a.data d n + 32) / 256 < dataSlots :=
    (Nat.div_lt_iff_lt_mul (by decide)).mpr fits
  have kept := (node.dirMapped dir).kept
  have words := entryOf_words name x
  refine wp_bind (wp_fsWrite free tree.vol node.file node.hard le_rfl
    ((Nat.div_le_div_right (by omega)).trans_lt inRange)
    ((missing_mono (touched_mono (by decide))).trans need) kept fun b first => ?_)
  refine wp_bind (wp_fsWrite_more free (first.congr words.1) node.file node.hard kept words.2 inRange
    le_rfl need fun c written => ?_)
  have pins : c.pins = a.pins := written.written.grown.pins
  refine wp_bind (wp_bread (by rw [pins]; omega) fun i data _ => ?_)
  have held := (c.put (d, x) data).mem_pin i (d, x)
  refine wp_bind (wp_setData held (wp_bind (wp_setModified held (wp_bind (wp_bfree held
    (wp_pure ?_))))))
  rw [DiskView.pin_store_settle_unpin]
  refine rest c _ ⟨tree, mem, dir, fits, count ▸ written, if_neg (by decide), notDots, marked, high,
    fresh, away, fun key ne => ?_, DiskView.put_data_self _ _ _, rfl⟩ pins
  exact (DiskView.put_data_ne _ _ _ ne).trans (DiskView.put_data_ne _ _ _ ne)

/-- `fs_create` of a name that the directory does not have: an entry for a block `x` that was free. -/
theorem wp_fsCreate_entry {env : FsEnv} {name : CString} {res : FsNode}
    {post : FsRv × FsNode × FsNode → DiskView → Prop} (tree : TreeOk a d live ∅)
    (unmounted : env.mtab = []) (free : a.pins.length + 3 < room) (mem : n ∈ live)
    (dir : IsDir a.data d n) (missing : findEntry a.data d n name.words = none)
    (fits : fileSize a.data d n + 32 < maxFileSize) (enough : 3 ≤ freeBlocks a d)
    (rest : ∀ x c e, isMarked a.data d x = false →
      NewEntry (a.mark d x true) c e d live n x flags (entryOf name x) → e.pins = a.pins →
      post (.ok, ⟨d, n⟩, { res with idx := x }) e) :
    wp (Shows drv base room) ok (fsCreate drv env ⟨d, n⟩ name flags res) post a := by
  have node := tree.node n mem
  have dirOk := node.dir dir fun raw => raw
  unfold fsCreate
  refine wp_bind (wp_fsStat (by omega) node.hard ?_)
  rw [statOf_mode, statOf_size dir.not_isDev]
  refine wp_pos dir (wp_bind (wp_fsFinddir unmounted (by omega) node dir dirOk.whole ?_))
  rw [missing]
  dsimp only [Option.map_none]
  refine wp_bind (wp_fsAllocBlock (by omega) tree.vol.bitmap (exists_clear (by omega))
    fun x clear => ?_)
  have same := node.file.mark_same x
  have taken := freeBlocks_mark clear
  have clear_of : ∀ {c}, isMarked a.data d c = true → c ≠ x := by
    rintro c set rfl
    rw [clear] at set
    cases set
  have notDots : ¬ IsDots ((List.range 32).map (entryOf name x)) := by
    refine not_isDots_entryOf (fun equal => ?_) fun equal => ?_
    · have here := findEntry_none missing dirOk.first.1
      rw [equal, dirOk.first.2] at here
      cases here
    · have here := findEntry_none missing dirOk.second.1
      rw [equal, dirOk.second.2] at here
      cases here
  rw [← same.size]
  refine wp_newEntry (tree.mark x) free mem (same.isDir.mpr dir) (same.size ▸ fits) (by omega) notDots
    ?_ (tree.vol.fresh clear) (fun inside => clear_of (tree.node x inside).file.marked rfl)
    (fun m mem' p here => ?_) fun c e new pins => rest x c e clear new pins
  · rw [DiskView.isMarked_mark, if_pos rfl]
  · have file := (tree.node m mem').file
    rw [(file.mark_same x).refs] at here
    have some : ref a.data d m p ≠ 0 := by
      rw [here]
      exact ne_zero_of_high (by have high := tree.vol.fresh clear; omega)
    exact clear_of (file.refs p some).2.1 here

/-- **`fs_create`** of a name that the directory does not have. -/
theorem wp_fsCreate {env : FsEnv} {name : CString} {res : FsNode}
    {post : FsRv × FsNode × FsNode → DiskView → Prop} (tree : TreeOk a d live ∅)
    (unmounted : env.mtab = []) (free : a.pins.length + 3 < room) (mem : n ∈ live)
    (dir : IsDir a.data d n) (missing : findEntry a.data d n name.words = none)
    (fits : fileSize a.data d n + 32 < maxFileSize) (enough : 3 ≤ freeBlocks a d)
    (rest : ∀ x e, Created a e d live n x flags → post (.ok, ⟨d, n⟩, { res with idx := x }) e) :
    wp (Shows drv base room) ok (fsCreate drv env ⟨d, n⟩ name flags res) post a :=
  wp_fsCreate_entry tree unmounted free mem dir missing fits enough fun x _ e clear new pins =>
    rest x e (new.created clear (tree.node n mem).file pins)

end Rules

end RlCpu.Kernel
