/-
**Programs on a machine (`CALL`, `genProcHeader` and `genRet` of `trans2.cpp`, `enter` and `ret` of the processor).**

A call leaves words for the result above the stack of the caller and a frame above them. The procedure finds its
parameters where `BP` of the caller points to, reserves its locals above the frame, runs its trees and stores the result
below the frame.

* `ProgramSite.step`: a step of a procedure is a run of the processor, one case for each tree.
* `ProgramSite.completes`: so is a call, by induction on the depth of the calls in it.
* `program_compiled`: a call of a procedure of a compiled program leaves what the procedure returns.
-/

import RlCpu.Binutils.Layout
import RlCpu.Binutils.Procedures

namespace RlCpu.Binutils

open RlCpu.Kernel RlCpu.Lib RlCpu.Lib.Abort RlCpu.Sim Relation

/-! ### The words of a frame -/

section Frames

variable {ι : Type} {D : Devices ι} {g : Window ι} {inside : Nat → Prop} {pc : Nat} {ap bp : Val} {ws : List Val}
  {t : Cpu (Demux ι)}

/-- Words reserved on the stack. -/
theorem At.reserve (here : At g pc ⟨ap, bp, ws⟩ t) {n : Nat} (room : ws.length + n ≤ g.size) :
    At g pc ⟨ap, bp, List.replicate n .any ++ ws⟩ (t.withSP (t.sp + BitVec.ofNat 16 n)) := by
  have length : (List.replicate n Val.any ++ ws).length = ws.length + n := by
    rw [List.length_append, List.length_replicate, Nat.add_comm]
  refine ⟨here.pc, here.ap, here.bp, ?_, length.trans_le room, fun j w found => ?_, here.outside,
    here.still.trans ⟨rfl, rfl, rfl, rfl, rfl, rfl, rfl, rfl, rfl, rfl, rfl⟩⟩
  · show t.sp + BitVec.ofNat 16 n = _
    rw [length, BitVec.ofNat_add, ← BitVec.add_assoc]
    exact congrArg (· + _) here.sp
  · rw [Mach.load_eq, List.reverse_append] at found
    by_cases below : j < ws.length
    · rw [List.getElem?_append_left (by simpa using below)] at found
      exact here.words j w (by rw [Mach.load_eq]; exact found)
    · rw [List.getElem?_append_right (by simpa using below), List.reverse_replicate, List.getElem?_replicate] at found
      split at found
      case isTrue => exact Option.some.inj found ▸ trivial
      case isFalse => cases found

/-- Reserved words are some words. -/
theorem At.reveal {n : Nat} (here : At g pc ⟨ap, bp, List.replicate n .any ++ ws⟩ t) :
    ∃ vals : List Word, vals.length = n ∧ At g pc ⟨ap, bp, vals.map .word ++ ws⟩ t := by
  let vals := (List.range n).map fun j => t.demux.ram (g.data (ws.length + j))
  have count : vals.length = n := by rw [List.length_map, List.length_range]
  have length : (vals.reverse.map Val.word ++ ws).length = (List.replicate n Val.any ++ ws).length := by
    rw [List.length_append, List.length_append, List.length_map, List.length_reverse, count, List.length_replicate]
  refine ⟨vals.reverse, by rw [List.length_reverse, count], here.pc, here.ap, here.bp, ?_, length.trans_le here.room,
    fun j w found => ?_, here.outside, here.still⟩
  · exact here.sp.trans (congrArg (fun n => g.base + BitVec.ofNat 16 n) length.symm)
  · rw [Mach.load_eq] at found
    change (vals.reverse.map Val.word ++ ws).reverse[j]? = some w at found
    rw [List.reverse_append, ← List.map_reverse, List.reverse_reverse] at found
    by_cases below : j < ws.length
    · rw [List.getElem?_append_left (by simpa using below)] at found
      refine here.words j w ?_
      rw [Mach.load_eq]
      show (List.replicate n Val.any ++ ws).reverse[j]? = _
      rwa [List.reverse_append, List.getElem?_append_left (by simpa using below)]
    · rw [List.getElem?_append_right (by simpa using below), List.length_reverse, List.getElem?_map,
        List.getElem?_map] at found
      obtain ⟨x, isX, rfl⟩ := Option.map_eq_some_iff.mp found
      obtain ⟨k, isK, rfl⟩ := Option.map_eq_some_iff.mp isX
      obtain ⟨small, rfl⟩ := List.getElem?_eq_some_iff.mp isK
      rw [List.getElem_range, Nat.add_sub_cancel' (Nat.le_of_not_lt below)]
      rfl

/-- **A call leaves words for a result and a frame above them.** The parameters are where `BP` points to. -/
theorem At.enterSized (target : Word) {words : Nat} (here : At g pc ⟨ap, bp, ws⟩ t) (room : ws.length + words + 4 ≤ g.size) :
    Does g (Sim.enter (demuxOps D) (BitVec.ofNat 16 words) target) t (target.toNat * 8)
      ⟨bp, .addr (ws.length + words + 4), Sim.frame t.bp t.ap pc ++ (List.replicate words .any ++ ws)⟩ := by
  have length : (List.replicate words Val.any ++ ws).length = ws.length + words := by
    rw [List.length_append, List.length_replicate, Nat.add_comm]
  have reserved := At.reserve here (n := words) (by omega)
  obtain ⟨u, run, done, ir⟩ := reserved.enterFrame (D := D) target (by rw [length]; exact room)
  refine ⟨u, ?_, ?_, ir⟩
  · rw [← run]
    unfold Sim.enter
    rw [exec_bind_ok (exec_modify _ _), exec_bind_ok (exec_modify _ _)]
    congr 1
    exact (congrArg (Cpu.withSP _) (BitVec.add_zero _)).symm
  · rw [length] at done
    refine done.move (.refl u) rfl done.pc rfl ?_ done.bp rfl
    rw [show u.ap = t.bp from done.ap]
    exact here.bp

/-- A call of a label. -/
theorem At.callLabel {op : Op} {words : Nat} (is : instruction (demuxOps D) op = callW (demuxOps D) (BitVec.ofNat 16 words))
    {target : Word} {rest : List Word} (here : At g pc ⟨ap, bp, ws⟩ t) (code : CodeAt g inside pc (op.word :: target :: rest))
    (room : ws.length + words + 4 ≤ g.size) : ∃ u, StepIn D inside t u ∧
      At g (target.toNat * 8)
        ⟨bp, .addr (ws.length + words + 4), Sim.frame t.bp t.ap (pc + 2) ++ (List.replicate words .any ++ ws)⟩ u := by
  refine here.step code op.decode_word ?_
  obtain ⟨u, run, done⟩ := At.enterSized (D := D) target ((here.fetched op.word).withPC (pc + 2)) room
  refine ⟨u, ?_, done⟩
  rw [is]
  unfold Sim.callW
  rw [exec_bind_ok ((here.fetched op.word).exec_operand code.tail), run]

/-- A call of the address on the stack. -/
theorem At.callTop {op : Op} {words : Nat}
    (is : instruction (demuxOps D) op = call (demuxOps D) (BitVec.ofNat 16 words))
    {target : Word} {rest : List Word} (here : At g pc ⟨ap, bp, .word target :: ws⟩ t) (code : CodeAt g inside pc (op.word :: rest))
    (room : ws.length + words + 4 ≤ g.size) : ∃ u b a, StepIn D inside t u ∧ bp.Is g.base b ∧ ap.Is g.base a ∧
      At g (target.toNat * 8)
        ⟨bp, .addr (ws.length + words + 4), Sim.frame b a (pc + 1) ++ (List.replicate words .any ++ ws)⟩ u := by
  obtain ⟨x, u, popped, isX, there, ir⟩ := (here.fetched op.word).pop (D := D) rfl
  obtain rfl := isX
  obtain ⟨v, run, done, ir'⟩ := At.enterSized (D := D) x there room
  have does : Does g (instruction (demuxOps D) op) (t.fetched op.word) (x.toNat * 8) _ :=
    ⟨v, by rw [is]; unfold Sim.call; rw [exec_bind_ok popped, run], done, ir'.trans ir⟩
  obtain ⟨w, step, last⟩ := here.step code op.decode_word does
  exact ⟨w, u.bp, u.ap, step, there.bp, there.ap, last⟩

end Frames

/-! ### The header and the ending -/

section Ending

variable {ι : Type} {D : Devices ι} {p : MathPlace} {addr : Text → Word} {size : Nat} {ap bp : Val} {ws below : List Val}

/-- **The header reserves the words of the locals and of the arguments.** -/
theorem Takes.alloc {nLocals nArgs : Nat} (room : ws.length + (nLocals + nArgs) ≤ size) :
    Takes D p.image addr size (genProcHeader nLocals nArgs) ⟨ap, bp, ws⟩
      ⟨ap, bp, List.replicate (nLocals + nArgs) .any ++ ws⟩ := by
  unfold genProcHeader
  simp only
  by_cases none : nLocals + nArgs = 0
  · rw [none, if_neg (by omega)]
    exact .nil _
  · rw [if_pos (by omega)]
    by_cases wide : nLocals + nArgs > 127
    · rw [if_pos wide]
      refine .word .allocW (nLocals + nArgs : Nat) rfl rfl (isNumeric_natText _) (evaluateExpr_natText _)
        fun g fits pc t here code => ?_
      have reserved := At.reserve (here.withPC (pc + 1)) (n := nLocals + nArgs) (room.trans fits)
      refine ⟨_, ?_, reserved, rfl⟩
      show (Sim.loadReg (demuxOps D) fun amount k => k.withSP (k.sp + amount)).exec t = _
      unfold Sim.loadReg
      rw [exec_bind_ok (here.exec_operand code), BitVec.ofInt_natCast]
      rfl
    · rw [if_neg wide]
      refine .byte .allocB (nLocals + nArgs : Nat) rfl rfl (isNumeric_natText _) (evaluateExpr_natText _) (by omega) ?_
      exact if_pos ⟨by omega, by rw [Int.toNat_natCast]; exact room⟩

theorem Mach.save_append {above : List Val} {v w : Val} :
    Mach.save ⟨ap, bp, above ++ w :: below⟩ below.length v = some ⟨ap, bp, above ++ v :: below⟩ := by
  have length : (above ++ w :: below).length = above.length + (below.length + 1) := by
    rw [List.length_append, List.length_cons]
  rw [Mach.save_of_lt (by omega), length, show above.length + (below.length + 1) - 1 - below.length = above.length by omega,
    List.set_append_right _ _ (le_refl _), Nat.sub_self]
  rfl

/-- **The ending stores the result** below the frame. -/
theorem Takes.result {n : Size} (v : BitVec n.bits) (above : List Val)
    (room : (above ++ (List.replicate n.words Val.any ++ below)).length + n.words < size) :
    Takes D p.image addr size (genResult n.words)
      ⟨ap, .addr (below.length + n.words + 4), n.stack v (above ++ (List.replicate n.words .any ++ below))⟩
      ⟨ap, .addr (below.length + n.words + 4), above ++ n.stack v below⟩ := by
  cases n with
  | one =>
    have address : Takes D p.image addr size [rcEntry .addrl "-5".toList .word .char]
        ⟨ap, .addr (below.length + 1 + 4), Size.one.stack v (above ++ Val.any :: below)⟩
        ⟨ap, .addr (below.length + 1 + 4), .addr below.length :: Size.one.stack v (above ++ Val.any :: below)⟩ := by
      refine .byte .addrlB (-5) rfl rfl rfl (show _ = some (-5) from rfl) (by decide) ?_
      have place : (Val.addr (below.length + 1 + 4)).offset (-5) = some below.length :=
        (if_pos (by omega)).trans (congrArg some (by omega))
      show ((Val.addr (below.length + 1 + 4)).offset (-5)).bind _ = _
      rw [place, Option.bind_some]
      exact Mach.push_of_lt room
    exact address.append (.plain .rstore rfl Mach.save_append)
  | two =>
    have address : Takes D p.image addr size [rcEntry .addrl "-6".toList .word .char]
        ⟨ap, .addr (below.length + 2 + 4), Size.two.stack v (above ++ Val.any :: Val.any :: below)⟩
        ⟨ap, .addr (below.length + 2 + 4), .addr below.length :: Size.two.stack v (above ++ Val.any :: Val.any :: below)⟩ := by
      refine .byte .addrlB (-6) rfl rfl rfl (show _ = some (-6) from rfl) (by decide) ?_
      have place : (Val.addr (below.length + 2 + 4)).offset (-6) = some below.length :=
        (if_pos (by omega)).trans (congrArg some (by omega))
      show ((Val.addr (below.length + 2 + 4)).offset (-6)).bind _ = _
      rw [place, Option.bind_some]
      exact Mach.push_of_lt room
    refine address.append (.plain .rstore2 rfl ?_)
    have first : Mach.save ⟨ap, .addr (below.length + 2 + 4), (above ++ [Val.any]) ++ Val.any :: below⟩ below.length
        (.word (low v)) = _ := Mach.save_append
    have second : Mach.save ⟨ap, .addr (below.length + 2 + 4), above ++ Val.any :: (.word (low v) :: below)⟩ (below.length + 1)
        (.word (high v)) = _ := Mach.save_append
    rw [List.append_assoc, List.append_assoc] at first
    show (Mach.save ⟨ap, .addr (below.length + 2 + 4), above ++ Val.any :: Val.any :: below⟩ below.length
      (.word (low v))).bind _ = _
    rw [show Mach.save ⟨ap, .addr (below.length + 2 + 4), above ++ Val.any :: Val.any :: below⟩ _ _ = _ from first,
      Option.bind_some]
    exact second

end Ending

/-- A stretch of the stack that has not changed. -/
theorem split_stack {ws above mid below : List Val} (length : ws.length = (above ++ (mid ++ below)).length)
    (same : ∀ k, below.length ≤ k → k < below.length + mid.length →
      ws.reverse[k]? = (above ++ (mid ++ below)).reverse[k]?) :
    ∃ above' below', ws = above' ++ (mid ++ below') ∧ below'.length = below.length ∧
      ∀ k < below.length, below'.reverse[k]? = ws.reverse[k]? := by
  have total : ws.length = above.length + (mid.length + below.length) := by
    rw [length, List.length_append, List.length_append]
  have middle : (ws.drop above.length).take mid.length = mid := by
    refine List.ext_getElem? fun j => ?_
    by_cases inside : j < mid.length
    · have here := same (below.length + (mid.length - 1 - j)) (by omega) (by omega)
      rw [List.getElem?_reverse (by omega), List.getElem?_reverse (by omega), ← length,
        show ws.length - 1 - (below.length + (mid.length - 1 - j)) = above.length + j by omega,
        List.getElem?_append_right (by omega), Nat.add_sub_cancel_left, List.getElem?_append_left inside] at here
      rw [List.getElem?_take_of_lt inside, List.getElem?_drop, here]
    · rw [List.getElem?_eq_none (by rw [List.length_take]; omega), List.getElem?_eq_none (by omega)]
  have whole : ws = ws.take above.length ++ (mid ++ (ws.drop above.length).drop mid.length) := by
    have rest := List.take_append_drop mid.length (ws.drop above.length)
    rw [middle] at rest
    rw [rest, List.take_append_drop]
  refine ⟨_, _, whole, by rw [List.length_drop, List.length_drop]; omega, fun k low => ?_⟩
  have split := congrArg List.reverse whole
  rw [List.reverse_append, List.reverse_append] at split
  rw [split, List.append_assoc, List.getElem?_append_left]
  rw [List.length_reverse, List.length_drop, List.length_drop]
  omega

/-! ### A program on a machine -/

/-- The words of the stack that a tree needs, but for the routines. -/
def Tree.height : Tree → Nat
  | .assign _ _ _ _ e => 1 + e.height
  | .call _ _ _ _ args => (args.map fun a => a.value.height).foldr max 0
  | .branch n _ _ a b _ => max a.height (n.words + b.height)
  | .jump _ => 0
  | .label _ => 0
  | .ret _ _ e => e.height

namespace Procedure

variable (f : Procedure)

/-- The words of the stack that a call needs, but for the calls in it: the result, the frame, the variables and the
values of a tree. -/
def room : Nat := 2 + 4 + (f.nLocals + f.nArgs) + (f.trees.map Tree.height).foldr max 0 + 2 + mathDepth

/-- The variables at the first tree, with the words `vals` for the locals and the arguments. -/
def first (vals argv : List Word) : Env
  | .locals, j => vals.reverse.getD (f.nArgs + j) 0
  | .params, j => argv.getD j 0

/-- The lines in front of the tree `i`. -/
def upTo (i : Nat) : List OutLine :=
  [.directive "proc".toList f.header, .directive "label".toList f.name.text] ++
    (genProcHeader f.nLocals f.nArgs).map .op ++ (f.trees.take i).flatMap (Tree.out f.nArgs)

/-- The lines behind the tree `i`. -/
def behind (i : Nat) : List OutLine :=
  (f.trees.drop (i + 1)).flatMap (Tree.out f.nArgs) ++ [.op retEntry, .directive "endproc".toList f.header]

variable {f} {i : Nat} {tree : Tree}

theorem upTo_succ (here : f.trees[i]? = some tree) : f.upTo (i + 1) = f.upTo i ++ tree.out f.nArgs := by
  unfold upTo
  rw [List.take_add_one, here, List.flatMap_append, List.append_assoc, List.append_assoc, List.append_assoc]
  exact congrArg _ (congrArg _ (congrArg _ (List.append_nil _)))

theorem out_split (here : f.trees[i]? = some tree) : f.out = f.upTo i ++ (tree.out f.nArgs ++ f.behind i) := by
  obtain ⟨low, rfl⟩ := List.getElem?_eq_some_iff.mp here
  have trees : f.trees.flatMap (Tree.out f.nArgs) = (f.trees.take i).flatMap (Tree.out f.nArgs) ++
      (f.trees[i].out f.nArgs ++ (f.trees.drop (i + 1)).flatMap (Tree.out f.nArgs)) := by
    rw [← List.flatMap_cons, ← List.drop_eq_getElem_cons low, ← List.flatMap_append, List.take_append_drop]
  unfold out upTo behind
  rw [trees]
  simp only [List.append_assoc]

end Procedure

theorem le_foldr_max {l : List Nat} {x : Nat} (mem : x ∈ l) : x ≤ l.foldr max 0 := by
  induction l with
  | nil => cases mem
  | cons y l ih =>
    rcases List.mem_cons.mp mem with rfl | mem
    · exact le_max_left _ _
    · exact (ih mem).trans (le_max_right _ _)

theorem Tree.height_le {f : Procedure} {tree : Tree} (mem : tree ∈ f.trees) :
    2 + 4 + (f.nLocals + f.nArgs) + tree.height + 2 + mathDepth ≤ f.room := by
  have most := le_foldr_max (List.mem_map_of_mem (f := Tree.height) mem)
  unfold Procedure.room
  omega

/-- The words of the stack that a call of any procedure needs, but for the calls in it. -/
def Program.room (prog : Program) : Nat := (prog.map Procedure.room).foldr max 0

/-- The address that the linker puts in for an operand: the assembler takes its first word. -/
def wordAddr (symbols : Text → Word) (arg : Text) : Word := symbols (readWord arg).1

/-- **A compiled program on a machine**: its code is at `pos`, the linker has put in the addresses of its labels, and the
routines are at the block `org`. -/
structure ProgramSite (ι : Type) (prog : Program) where
  symbols : Text → Word
  org : Nat
  fits : org + blocksOf mathS ≤ 0x10000
  window : Window ι
  pos : Nat
  words : List Word
  assembled : layout (wordAddr symbols) pos prog.out = some words
  linked : ∀ label ∈ labels (wordAddr symbols) pos prog.out, (symbols label.1).toNat * 8 = label.2
  code : CodeAt window (fun _ => True) pos words
  low : pos + words.length < 0x80000
  library : CodeAt window (fun _ => True) (org * 8)
    ((codeFrom mathS).flatMap (Instr.words fun l => BitVec.ofNat 16 (org + offsetOf mathS l)))
  routines : ∀ (h : Helper) t n, wordAddr symbols (h.text t n) = BitVec.ofNat 16 (org + offsetOf mathS (h.label t n))
  comparisons : ∀ (c : Cmp) t target,
    wordAddr symbols (c.text t target) = BitVec.ofNat 16 (org + offsetOf mathS (c.label t))

namespace ProgramSite

variable {ι : Type} {prog : Program} (site : ProgramSite ι prog)

abbrev place : MathPlace := MathPlace.anywhere site.org site.fits

abbrev addr : Text → Word := wordAddr site.symbols

/-- The code of a procedure is at `pos`. -/
structure Holds (f : Procedure) (pos : Nat) (words : List Word) : Prop where
  assembled : layout site.addr pos f.out = some words
  linked : ∀ label ∈ labels site.addr pos f.out, (site.symbols label.1).toNat * 8 = label.2
  code : CodeAt site.window site.place.image.inside pos words
  low : pos + words.length < 0x80000

variable {site} {f : Procedure} {pos : Nat} {words : List Word}

/-- The code of every procedure is somewhere. -/
theorem holds (mem : f ∈ prog) : ∃ pos words, site.Holds f pos words := by
  obtain ⟨before, after, rfl⟩ := List.append_of_mem mem
  have low := site.low
  have linked := site.linked
  have out : Program.out (before ++ f :: after) = Program.out before ++ (f.out ++ Program.out after) := by
    show (before ++ f :: after).flatMap Procedure.out = _
    rw [List.flatMap_append, List.flatMap_cons]
    rfl
  have assembled := site.assembled
  rw [out] at assembled linked
  obtain ⟨front, rest, isFront, isRest, words⟩ := layout_append assembled
  obtain ⟨here, back, isHere, -, rfl⟩ := layout_append isRest
  have code : CodeAt site.window site.place.image.inside site.pos site.words := code_anywhere site.code (le_of_lt low)
  rw [words] at code low
  rw [List.length_append, List.length_append] at low
  refine ⟨_, _, isHere, fun label mem => linked label ?_, code.right.left, by omega⟩
  rw [labels_append isFront, labels_append isHere]
  exact List.mem_append_right _ (List.mem_append_left _ mem)

variable (site f pos) in
/-- Where the tree `i` is in the code. -/
def at' (i : Nat) : Nat := pos + ((layout site.addr pos (f.upTo i)).getD []).length

/-- **The code of a tree**, and the code behind it. -/
theorem tree_code (holds : site.Holds f pos words) {i : Nat} {tree : Tree} (here : f.trees[i]? = some tree) : ∃ ws,
    layout site.addr (site.at' f pos i) (tree.out f.nArgs) = some ws ∧
      CodeAt site.window site.place.image.inside (site.at' f pos i) ws ∧
      site.at' f pos (i + 1) = site.at' f pos i + ws.length ∧ site.at' f pos i + ws.length < 0x80000 := by
  have low := holds.low
  have code := holds.code
  have assembled := holds.assembled
  rw [Procedure.out_split here] at assembled
  obtain ⟨before, rest, first, second, rfl⟩ := layout_append assembled
  obtain ⟨ws, after, is, -, rfl⟩ := layout_append second
  have place : site.at' f pos i = pos + before.length := by
    unfold at'
    rw [first, Option.getD_some]
  have next : layout site.addr pos (f.upTo (i + 1)) = some (before ++ ws) := by
    rw [Procedure.upTo_succ here]
    exact layout_concat first is
  rw [List.length_append, List.length_append] at low
  refine ⟨ws, place ▸ is, place ▸ code.right.left, ?_, by omega⟩
  rw [place]
  unfold at'
  rw [next, Option.getD_some, List.length_append, Nat.add_assoc]

end ProgramSite

/-- What the code of a call is. -/
theorem ProcName.linked_code {callee : ProcName} {n : Size} {addr : Text → Word} {code : List Word}
    (is : linked addr (callee.code n) = some code) :
    code = [Op.cnstW.word, addr callee.text, (callOp none n.words).word] := by
  obtain ⟨text, ne, plain, label⟩ := callee
  have first : (addrgEntry text).assemble = some [.num Op.cnstW.word, .label text] := by
    have isLink : (argClass text).2 = .link := by
      cases text with
      | nil => exact absurd rfl ne
      | cons c rest =>
        have noDigit : c.isDigit = false := (Bool.or_eq_false_iff.mp label).1
        simp only [argClass, noDigit, Bool.false_eq_true, if_false]
    unfold addrgEntry
    rw [isLink]
    show (if isNumeric text then (evaluateExpr text).bind _ else some [AsmWord.num _, AsmWord.label text]) = _
    rw [label]
    rfl
  have second : linked addr (callEntry n.words none).toList = some [(callOp none n.words).word] := by
    cases n <;> rfl
  have whole : linked addr (ProcName.code ⟨text, ne, plain, label⟩ n) = (addrgEntry text).assemble.bind fun ws =>
      (linked addr (callEntry n.words none).toList).bind fun rest => some (ws.map (AsmWord.value addr) ++ rest) := rfl
  rw [whole, first, second] at is
  exact (Option.some.inj is).symm

/-- The first label of a name. -/
theorem labelPlace_eq {trees : List Tree} {target i : Nat} (is : labelPlace trees target = some i) :
    ∃ j, trees[j]? = some (.label target) ∧ i = j + 1 := by
  obtain ⟨j, found, rfl⟩ := Option.map_eq_some_iff.mp is
  obtain ⟨low, isLabel, -⟩ := List.findIdx?_eq_some_iff_getElem.mp found
  refine ⟨j, ?_, rfl⟩
  rw [List.getElem?_eq_getElem low]
  cases tree : trees[j] with
  | label name =>
    rw [tree] at isLabel
    rw [show name = target from of_decide_eq_true isLabel]
  | assign => rw [tree] at isLabel; cases isLabel
  | call => rw [tree] at isLabel; cases isLabel
  | branch => rw [tree] at isLabel; cases isLabel
  | jump => rw [tree] at isLabel; cases isLabel
  | ret => rw [tree] at isLabel; cases isLabel

namespace ProgramSite

variable {ι : Type} {prog : Program} {site : ProgramSite ι prog} {f : Procedure} {pos : Nat} {words : List Word}

/-- **A label is where the trees behind it are.** -/
theorem target_place (holds : site.Holds f pos words) {target i : Nat} (is : labelPlace f.trees target = some i) :
    (site.addr (labelText target)).toNat * 8 = site.at' f pos i := by
  obtain ⟨j, here, rfl⟩ := labelPlace_eq is
  obtain ⟨ws, laid, -, next, -⟩ := tree_code holds here
  have assembled := holds.assembled
  rw [Procedure.out_split here] at assembled
  obtain ⟨before, rest, first, -, -⟩ := layout_append assembled
  have place : site.at' f pos j = pos + before.length := by
    unfold at'
    rw [first, Option.getD_some]
  have mem : (labelText target, site.at' f pos (j + 1)) ∈ labels site.addr pos f.out := by
    rw [Procedure.out_split here, labels_append first, ← place]
    refine List.mem_append_right _ ?_
    rw [show Tree.out f.nArgs (.label target) = [.directive "label".toList (labelText target)] from rfl, layout_single] at laid
    rw [next, show site.at' f pos j + ws.length = site.at' f pos j + ((some ws).getD []).length from rfl, ← laid]
    exact List.mem_cons_self
  have linked := holds.linked _ mem
  unfold addr wordAddr
  rw [readWord_labelText]
  exact linked

/-- **The code of the header** is where the name of the procedure is. -/
theorem header_code (holds : site.Holds f pos words) : ∃ header,
    RlCpu.Binutils.linked site.addr (genProcHeader f.nLocals f.nArgs) = some header ∧
      CodeAt site.window site.place.image.inside ((site.symbols f.name.text).toNat * 8) header ∧
      site.at' f pos 0 = (site.symbols f.name.text).toNat * 8 + header.length ∧ site.at' f pos 0 < 0x80000 := by
  have low := holds.low
  have code := holds.code
  have assembled := holds.assembled
  have out : f.out = [.directive "proc".toList f.header] ++ ([.directive "label".toList f.name.text] ++
      ((genProcHeader f.nLocals f.nArgs).map .op ++ (f.trees.flatMap (Tree.out f.nArgs) ++
        [.op retEntry, .directive "endproc".toList f.header]))) := by
    unfold Procedure.out
    simp only [List.append_assoc]
    rfl
  rw [out] at assembled
  obtain ⟨proc, rest, isProc, behindProc, rfl⟩ := layout_append assembled
  obtain ⟨pad, rest, isPad, behindPad, rfl⟩ := layout_append behindProc
  obtain ⟨header, rest, isHeader, -, rfl⟩ := layout_append behindPad
  have linked := isHeader
  rw [layout_ops] at linked
  have upTo : f.upTo 0 = [.directive "proc".toList f.header] ++ ([.directive "label".toList f.name.text] ++
      (genProcHeader f.nLocals f.nArgs).map .op) := List.append_nil _
  have whole : layout site.addr pos (f.upTo 0) = some (proc ++ (pad ++ header)) := by
    rw [upTo]
    exact layout_concat isProc (layout_concat isPad isHeader)
  rw [layout_single] at isProc isPad
  obtain rfl : [] = proc := Option.some.inj isProc
  have name : (site.symbols f.name.text).toNat * 8 = pos + pad.length := by
    refine holds.linked (f.name.text, _) ?_
    rw [out, labels_append (layout_single _)]
    show _ ∈ [(f.name.text, pos + ((OutLine.words _ _ _).getD []).length)] ++ _
    rw [isPad]
    exact List.mem_append_left _ List.mem_cons_self
  rw [List.length_append, List.length_append, List.length_append, List.length_nil] at low
  have place : site.at' f pos 0 = pos + pad.length + header.length := by
    unfold at'
    rw [whole, Option.getD_some, List.nil_append, List.length_append, Nat.add_assoc]
  refine ⟨header, linked, ?_, name ▸ place, by omega⟩
  rw [name]
  exact code.right.right.left

/-! ### Calls -/

/-- The stack of a caller behind a call: only the parameters have changed. -/
structure Kept (frame count : Nat) (below below' : List Val) : Prop where
  length : below'.length = below.length
  same : ∀ k, ¬ (frame ≤ k ∧ k < frame + count) → below'.reverse[k]? = below.reverse[k]?

/-- The words are the first ones of a part of the stack. -/
def Passed (argv : List Word) (frame : Nat) (below : List Val) : Prop :=
  ∀ j w, argv[j]? = some w → below.reverse[frame + j]? = some (.word w)

variable (site) in
/-- **Calls are completed** where `need` words of the stack are left: from the first instruction of the callee, with the
frame of the call above the words for the result, the processor comes back behind the call, and the result is there. -/
def Completes (D : Devices ι) (calls : Calls) (need : Nat) : Prop :=
  ∀ name n argv v, calls name n argv v → ∀ frame below b a back, frame + argv.length ≤ below.length →
    Passed argv frame below → back < 0x80000 → below.length + need ≤ site.window.size → ∀ t,
      At site.window ((site.symbols name).toNat * 8) ⟨.addr frame, .addr (below.length + n.words + 4),
        Sim.frame b a back ++ (List.replicate n.words .any ++ below)⟩ t →
      ∃ u below', ReflTransGen (StepIn D site.place.image.inside) t u ∧
        At site.window back ⟨.word a, .word b, n.stack v below'⟩ u ∧ Kept frame argv.length below below'

section Runs

variable (site) (D : Devices ι)

/-- **The code of the entries goes from the stack `m` to one with `post`**, on this machine. -/
def Runs (entries : List RcEntry) (m : Mach) (post : Mach → Prop) : Prop :=
  ∀ ws, RlCpu.Binutils.linked site.addr entries = some ws → ∀ pc, pc + ws.length < 0x80000 →
    CodeAt site.window site.place.image.inside pc ws → ∀ t, At site.window pc m t →
      ∃ u m', ReflTransGen (StepIn D site.place.image.inside) t u ∧ At site.window (pc + ws.length) m' u ∧ post m'

variable {site D} {entries first second : List RcEntry} {m m' : Mach} {post next : Mach → Prop}

theorem loaded : site.place.image.Loaded site.window := loaded_anywhere site.library

/-- Entries that do not depend on the program. -/
theorem Runs.of_takes (takes : Takes D site.place.image site.addr site.window.size entries m m') (holds : post m') :
    site.Runs D entries m post := by
  intro ws is pc low code t here
  obtain ⟨u, steps, there⟩ := takes site.window (le_refl _) loaded ws is pc low code t here
  exact ⟨u, m', steps, there, holds⟩

theorem Runs.append (left : site.Runs D first m post) (right : ∀ m', post m' → site.Runs D second m' next) :
    site.Runs D (first ++ second) m next := by
  intro ws is pc low code t here
  obtain ⟨vs, us, isFirst, isSecond, rfl⟩ := linked_append is
  rw [List.length_append] at low ⊢
  obtain ⟨u, m', steps, there, holds⟩ := left vs isFirst pc (by omega) code.left t here
  obtain ⟨w, m'', more, last, done⟩ := right m' holds us isSecond (pc + vs.length) (by omega) code.right u there
  refine ⟨w, m'', steps.trans more, ?_, done⟩
  rw [← Nat.add_assoc]
  exact last

end Runs

variable {D : Devices ι} {calls : Calls} {need : Nat} {n : Size} {argv : List Word} {v : BitVec n.bits} {A : Areas}

/-- **The code of a call completes it**, with a few words on top of the stack of the caller. -/
theorem Runs.call (completes : site.Completes D calls need) {callee : ProcName} (called : calls callee.text n argv v)
    (top : List Val) {ws : List Val} (enough : A.frame + argv.length ≤ ws.length) (passed : Passed argv A.frame ws)
    (deep : (top ++ ws).length + need ≤ site.window.size) (room : (top ++ ws).length + n.words + 4 ≤ site.window.size) :
    site.Runs D (callee.code n) ⟨.addr A.args, .addr A.frame, top ++ ws⟩ fun m => ∃ ws', Kept A.frame argv.length ws ws' ∧
      m = ⟨.addr A.args, .addr A.frame, n.stack v (top ++ ws')⟩ := by
  intro code is pc low at' t here
  obtain rfl := ProcName.linked_code is
  have length : (top ++ ws).length = top.length + ws.length := List.length_append
  have address : site.addr callee.text = site.symbols callee.text := congrArg site.symbols callee.readWord_text
  rw [address] at at'
  obtain ⟨u, push, pushed⟩ := here.step (D := D) at' (Op.decode_word _)
    ((here.fetched _).pushRegW (le_refl _) at'.tail (Mach.push_of_lt (by omega)))
  have sized : instruction (demuxOps D) (callOp none n.words) = Sim.call (demuxOps D) (BitVec.ofNat 16 n.words) :=
    instruction_callOp (by cases n <;> decide)
  obtain ⟨w, b, a, enter, isBP, isAP, entered⟩ := At.callTop sized pushed at'.tail.tail room
  have passed' : Passed argv A.frame (top ++ ws) := fun j w found => by
    have inside := (List.getElem?_eq_some_iff.mp found).1
    rw [List.reverse_append, List.getElem?_append_left (by rw [List.length_reverse]; omega)]
    exact passed j w found
  obtain ⟨x, below, steps, back, kept⟩ := completes _ _ _ _ called _ _ b a (pc + 3) (by omega) passed' low deep w entered
  have above : ∀ k, ws.length ≤ k → k < ws.length + top.length →
      below.reverse[k]? = ([] ++ (top ++ ws)).reverse[k]? := fun k first _ => kept.same k (by omega)
  obtain ⟨none, ws', rfl, count, same⟩ := split_stack kept.length above
  have empty : none = [] := List.eq_nil_of_length_eq_zero (by
    have total := kept.length
    rw [List.length_append, List.length_append] at total
    omega)
  subst empty
  refine ⟨x, ⟨.addr A.args, .addr A.frame, n.stack v (top ++ ws')⟩, .head push (.head enter steps),
    back.move (.refl x) rfl back.pc rfl ?_ ?_ rfl, ws', ⟨count, fun k outside => ?_⟩, rfl⟩
  · rw [show x.ap = a from back.ap]
    exact isAP
  · rw [show x.bp = b from back.bp]
    exact isBP
  · by_cases low : k < ws.length
    · rw [same k low, kept.same k outside, List.reverse_append,
        List.getElem?_append_left (by rw [List.length_reverse]; exact low)]
    · rw [List.getElem?_eq_none (by rw [List.length_reverse]; omega),
        List.getElem?_eq_none (by rw [List.length_reverse]; omega)]

end ProgramSite

/-! ### A procedure that runs -/

/-- **A procedure that has been called**: the stack `below` of the caller, whose frame is at the word `frame`, with its
registers and the place behind the call. -/
structure Activation {ι : Type} {prog : Program} (site : ProgramSite ι prog) (f : Procedure) (n : Size) where
  pos : Nat
  words : List Word
  holds : site.Holds f pos words
  frame : Nat
  below : List Val
  b : Word
  a : Word
  back : Nat
  low : back < 0x80000
  inFrame : frame + f.nParams ≤ below.length
  room : below.length + f.room ≤ site.window.size

namespace Activation

variable {ι : Type} {D : Devices ι} {prog : Program} {site : ProgramSite ι prog} {f : Procedure} {n : Size}
  (x : Activation site f n)

/-- Where the words of the procedure are. -/
def areas : Areas where
  args := x.frame
  frame := x.below.length + n.words + 4
  nArgs := f.nArgs
  nLocals := f.nLocals
  nParams := f.nParams
  apart := by
    have inFrame := x.inFrame
    omega

/-- Where the tree `i` is in the code. -/
abbrev at' (i : Nat) : Nat := site.at' f x.pos i

/-- The words of the stack in a procedure, without the values of a tree. -/
abbrev total : Nat := x.below.length + n.words + 4 + (f.nLocals + f.nArgs)

/-- The processor is before the tree `c.1`, with the variables `c.2`. -/
def Here (base : List Val) (c : Nat × Env) (t : Cpu (Demux ι)) : Prop :=
  ∃ ws, x.areas.Framed base c.2 ws ∧ At site.window (x.at' c.1) ⟨.addr x.areas.args, .addr x.areas.frame, ws⟩ t

variable {x} {base : List Val} {c c' : Nat × Env} {t : Cpu (Demux ι)} {calls : Calls} {need : Nat}

/-- A tree whose code is entries that go to the stack of the procedure with other variables. -/
theorem step_of_runs {tree : Tree} {entries : List RcEntry} {env' : Env} (found : f.trees[c.1]? = some tree)
    (is : tree.out f.nArgs = entries.map .op) (here : x.Here base c t)
    (runs : ∀ ws, x.areas.Framed base c.2 ws → site.Runs D entries ⟨.addr x.areas.args, .addr x.areas.frame, ws⟩ fun m =>
      ∃ ws', x.areas.Framed base env' ws' ∧ m = ⟨.addr x.areas.args, .addr x.areas.frame, ws'⟩) :
    ∃ u, ReflTransGen (StepIn D site.place.image.inside) t u ∧ x.Here base (c.1 + 1, env') u := by
  obtain ⟨ws, framed, at'⟩ := here
  obtain ⟨code, laid, codeAt, behind, low⟩ := ProgramSite.tree_code x.holds found
  rw [is, layout_ops] at laid
  obtain ⟨u, m, steps, there, ws', framed', rfl⟩ := runs ws framed code laid _ low codeAt t at'
  refine ⟨u, steps, ws', framed', ?_⟩
  show At site.window (site.at' f x.pos (c.1 + 1)) _ u
  rw [behind]
  exact there

/-- **The call of a procedure in another**, with its arguments. -/
theorem runs_call (completes : site.Completes D calls need) (deep : x.below.length + f.room + need ≤ site.window.size)
    (length : base.length = x.total) {m : Size} {ty : Ty} {dest : Option (Area × Nat)} {callee : ProcName}
    {args : List Argument} {v : BitVec m.bits} {env : Env} (mem : .call m ty dest callee args ∈ f.trees)
    (called : calls callee.text m (argWords .target env args) v) {ws : List Val} (framed : x.areas.Framed base env ws) :
    site.Runs D (callCode f.nArgs m dest callee args) ⟨.addr x.areas.args, .addr x.areas.frame, ws⟩ fun m' =>
      ∃ ws', x.areas.Framed base (env.result dest m v) ws' ∧ m' = ⟨.addr x.areas.args, .addr x.areas.frame, ws'⟩ := by
  obtain ⟨fitDest, few, fitArgs⟩ := f.fits _ mem
  have height := Tree.height_le mem
  change base.length = x.below.length + n.words + 4 + (f.nLocals + f.nArgs) at length
  have words := framed.length.trans length
  have routines : NamesRoutines site.addr site.place.image := site.routines
  have sixtyFour : mathDepth = 64 := rfl
  have two : n.words ≤ 2 := by cases n <;> decide
  have two' : m.words ≤ 2 := by cases m <;> decide
  have heights : ∀ a ∈ args, base.length + a.value.height + mathDepth ≤ site.window.size := fun a mem => by
    have most : a.value.height ≤ (Tree.call m ty dest callee args).height := le_foldr_max (List.mem_map_of_mem mem)
    omega
  obtain ⟨ws', takes, framed', passed⟩ := takes_args (D := D) (A := x.areas) routines fitArgs
    (show 0 + argCount args ≤ f.nArgs by omega) framed (List.length_nil (α := Word)) (fun j w found => nomatch found) heights
  rw [List.nil_append] at passed
  have count := argWords_length .target env args
  have words' : ws'.length = ws.length := framed'.length.trans framed.length.symm
  have enough : x.areas.frame + (argWords .target env args).length ≤ ws'.length := by
    have bound := framed'.args
    rw [count]
    exact (Nat.add_le_add_left few _).trans bound
  -- what the callee leaves is still the stack of the procedure
  have after : ∀ ws'', ProgramSite.Kept x.areas.frame (argWords .target env args).length ws' ws'' →
      x.areas.Framed base env ws'' :=
    fun ws'' kept => framed'.argument kept.length fun k outside => kept.same k fun within => outside
      ⟨within.1, within.2.trans_le (Nat.add_le_add_left (count ▸ few) _)⟩
  cases dest with
  | none =>
    have top : ([] ++ ws' : List Val).length = ws'.length := rfl
    have call := ProgramSite.Runs.call completes called [] enough passed (by omega) (by omega)
    refine ((ProgramSite.Runs.of_takes takes rfl).append fun m' is => is ▸ call).append fun m' holds => ?_
    obtain ⟨ws'', kept, rfl⟩ := holds
    refine .of_takes ?_ ⟨ws'', after ws'' kept, rfl⟩
    exact .dropped (congrArg natText (m.wordsOf_length v)) (by rw [m.wordsOf_length]; omega)
  | some place =>
    have fit : place.2 + m.words ≤ x.areas.count place.1 := fitDest place rfl
    have top : ([.addr (x.areas.base place.1 + place.2)] ++ ws' : List Val).length = ws'.length + 1 := rfl
    have address : Takes D site.place.image site.addr site.window.size [place.1.entry f.nArgs place.2]
        ⟨.addr x.areas.args, .addr x.areas.frame, ws'⟩ ⟨.addr x.areas.args, .addr x.areas.frame,
          [.addr (x.areas.base place.1 + place.2)] ++ ws'⟩ := .address f.nArgs place.1 place.2 (by omega)
    have call := ProgramSite.Runs.call completes called [.addr (x.areas.base place.1 + place.2)] enough passed (by omega)
      (by omega)
    have addressed := (ProgramSite.Runs.of_takes address rfl).append fun m' is => is ▸ call
    refine ((ProgramSite.Runs.of_takes takes rfl).append fun m' is => is ▸ addressed).append fun m' holds => ?_
    obtain ⟨ws'', kept, rfl⟩ := holds
    have framed'' := after ws'' kept
    refine .of_takes (.store v ?_) ⟨_, framed''.store v fit, rfl⟩
    have positive : 0 < m.words := by cases m <;> decide
    have small := framed''.inside (show place.2 + m.words - 1 < x.areas.count place.1 by omega)
    show x.areas.base place.1 + place.2 + m.words ≤ ws''.length
    omega

/-- **A step of the procedure is a run of the processor**, one case for each tree. -/
theorem step (completes : site.Completes D calls need) (deep : x.below.length + f.room + need ≤ site.window.size)
    (length : base.length = x.total) (step : f.Step .target (fun _ _ => True) calls c c') (here : x.Here base c t) :
    ∃ u, ReflTransGen (StepIn D site.place.image.inside) t u ∧ x.Here base c' u := by
  cases step with
  | call found _ called =>
    exact step_of_runs found rfl here fun ws framed =>
      runs_call completes deep length (List.mem_of_getElem? found) called framed
  | @tree tree c' found may next =>
    have mem := List.mem_of_getElem? found
    have fit := f.fits _ mem
    have height := Tree.height_le mem
    have routines : NamesRoutines site.addr site.place.image := site.routines
    have comparisons : NamesCmps site.addr site.place.image := site.comparisons
    have few : mathDepth = 64 := rfl
    have two : n.words ≤ 2 := by cases n <;> decide
    change base.length = x.below.length + n.words + 4 + (f.nLocals + f.nArgs) at length
    cases tree with
    | assign m ty area offset e =>
      obtain rfl := Option.some.inj next
      refine step_of_runs found rfl here fun ws framed => ?_
      have words := framed.length.trans length
      have tall : (Tree.assign m ty area offset e).height = 1 + e.height := rfl
      exact .of_takes (Tree.takes_assign (A := x.areas) routines e fit.2 fit.1 framed (by omega)) ⟨_, framed.store _ fit.1, rfl⟩
    | call m ty dest callee args => cases next
    | branch m cmp ty a b target =>
      obtain ⟨ws, framed, at'⟩ := here
      obtain ⟨code, laid, codeAt, behind, low⟩ := ProgramSite.tree_code x.holds found
      have words := framed.length.trans length
      have tall : (Tree.branch m cmp ty a b target).height = max a.height (m.words + b.height) := rfl
      rw [show Tree.out f.nArgs _ = List.map OutLine.op _ from rfl, layout_ops] at laid
      obtain ⟨before, last, first, second, rfl⟩ := linked_append laid
      rw [List.length_append] at low behind
      have left : Takes D site.place.image site.addr site.window.size (a.code f.nArgs) _ _ :=
        a.takes_framed (A := x.areas) routines fit.1 framed [] (by rw [List.nil_append]; omega)
      have right : Takes D site.place.image site.addr site.window.size (b.code f.nArgs) _ _ :=
        b.takes_framed (A := x.areas) routines fit.2 framed ((m.wordsOf (a.eval .target c.2)).map .word) (by
          rw [List.length_append, List.length_map, m.wordsOf_length]
          omega)
      obtain ⟨u, steps, there⟩ := (left.append right) site.window (le_refl _) ProgramSite.loaded before first _ (by omega)
        codeAt.left _ at'
      obtain ⟨w, more, last⟩ := Cmp.branches (D := D) comparisons cmp ty (a.eval .target c.2) (b.eval .target c.2) target
        (le_refl _) ProgramSite.loaded (by omega) second (by omega) codeAt.right there
      refine ⟨w, steps.trans more, ws, ?_⟩
      change (if _ then _ else _) = _ at next
      by_cases holds : cmp.holds .target ty m (a.eval .target c.2) (b.eval .target c.2)
      · rw [if_pos holds] at next last
        obtain ⟨i, place, rfl⟩ := Option.map_eq_some_iff.mp next
        rw [ProgramSite.target_place x.holds place] at last
        exact ⟨framed, last⟩
      · rw [if_neg holds] at next last
        obtain rfl := Option.some.inj next
        rw [Nat.add_assoc, ← behind] at last
        exact ⟨framed, last⟩
    | jump target =>
      obtain ⟨ws, framed, at'⟩ := here
      obtain ⟨code, laid, codeAt, -, -⟩ := ProgramSite.tree_code x.holds found
      have words := framed.length.trans length
      rw [show Tree.out f.nArgs _ = List.map OutLine.op _ from rfl, layout_ops] at laid
      obtain ⟨i, place, rfl⟩ := Option.map_eq_some_iff.mp next
      obtain ⟨u, steps, there⟩ := At.jumps (D := D) (le_refl _) (by omega) laid codeAt at'
      rw [ProgramSite.target_place x.holds place] at there
      exact ⟨u, steps, ws, framed, there⟩
    | label name =>
      obtain ⟨ws, framed, at'⟩ := here
      obtain ⟨code, laid, codeAt, behind, -⟩ := ProgramSite.tree_code x.holds found
      obtain rfl := Option.some.inj next
      rw [show Tree.out f.nArgs (.label name) = [.directive "label".toList (labelText name)] from rfl, layout_single] at laid
      obtain rfl : List.replicate ((8 - site.at' f x.pos c.1 % 8) % 8) Op.nop.word = code := Option.some.inj laid
      obtain ⟨u, steps, there⟩ := At.nops (D := D) _ at' codeAt
      rw [List.length_replicate] at behind
      refine ⟨u, steps, ws, framed, ?_⟩
      show At site.window (site.at' f x.pos (c.1 + 1)) _ u
      rw [behind]
      exact there
    | ret m ty e => cases next

/-- **A run of the procedure is a run of the processor.** -/
theorem run (completes : site.Completes D calls need) (deep : x.below.length + f.room + need ≤ site.window.size)
    (length : base.length = x.total) (run : ReflTransGen (f.Step .target (fun _ _ => True) calls) c c')
    (here : x.Here base c t) : ∃ u, ReflTransGen (StepIn D site.place.image.inside) t u ∧ x.Here base c' u := by
  induction run with
  | refl => exact ⟨t, .refl, here⟩
  | tail _ last ih =>
    obtain ⟨u, steps, there⟩ := ih
    obtain ⟨v, more, there⟩ := x.step completes deep length last there
    exact ⟨v, steps.trans more, there⟩

variable (x) in
/-- The stack at the first tree, with the words `vals` for the locals and the arguments. -/
def start (vals : List Word) : List Val :=
  vals.map .word ++ (Sim.frame x.b x.a x.back ++ (List.replicate n.words .any ++ x.below))

theorem start_length {vals : List Word} (length : vals.length = f.nLocals + f.nArgs) : (x.start vals).length = x.total := by
  have four : (Sim.frame x.b x.a x.back).length = 4 := rfl
  unfold start
  rw [List.length_append, List.length_append, List.length_append, List.length_map, List.length_replicate, four, length]
  show _ = x.below.length + n.words + 4 + (f.nLocals + f.nArgs)
  omega

theorem start_framed {vals : List Word} (length : vals.length = f.nLocals + f.nArgs) {argv : List Word}
    (count : argv.length = f.nParams) (passed : ProgramSite.Passed argv x.frame x.below) :
    x.areas.Framed (x.start vals) (f.first vals argv) (x.start vals) := by
  have inFrame := x.inFrame
  have total := x.start_length length
  have four : (Sim.frame x.b x.a x.back).length = 4 := rfl
  refine ⟨rfl, fun area j low => ?_, ?_, fun _ _ => rfl⟩
  · unfold start
    rw [List.reverse_append, List.reverse_append, List.reverse_append]
    cases area with
    | locals =>
      change j < f.nLocals at low
      show (_ ++ _)[x.below.length + n.words + 4 + f.nArgs + j]? = some (Val.word (vals.reverse.getD (f.nArgs + j) 0))
      have skip : (x.below.reverse ++ (List.replicate n.words Val.any).reverse ++ (Sim.frame x.b x.a x.back).reverse).length =
          x.below.length + n.words + 4 := by
        rw [List.length_append, List.length_append, List.length_reverse, List.length_reverse, List.length_reverse,
          List.length_replicate, four]
      rw [List.getElem?_append_right (by omega), skip, ← List.map_reverse, List.getElem?_map,
        show x.below.length + n.words + 4 + f.nArgs + j - (x.below.length + n.words + 4) = f.nArgs + j by omega,
        List.getD_eq_getElem?_getD, List.getElem?_eq_getElem (by rw [List.length_reverse]; omega)]
      rfl
    | params =>
      change j < f.nParams at low
      have inside : x.frame + j < x.below.reverse.length := by
        rw [List.length_reverse]
        omega
      show (_ ++ _)[x.frame + j]? = some (Val.word (argv.getD j 0))
      have is : argv[j]? = some (argv.getD j 0) := by
        rw [List.getD_eq_getElem?_getD, List.getElem?_eq_getElem (count ▸ low)]
        rfl
      rw [List.append_assoc, List.append_assoc, List.getElem?_append_left inside]
      exact passed j _ is
  · rw [total]
    show x.below.length + n.words + 4 + f.nArgs ≤ x.below.length + n.words + 4 + (f.nLocals + f.nArgs)
    omega

/-- **The header**: the processor comes to the first tree. -/
theorem enters (room : x.total ≤ site.window.size) (here : At site.window ((site.symbols f.name.text).toNat * 8)
      ⟨.addr x.frame, .addr (x.below.length + n.words + 4),
        Sim.frame x.b x.a x.back ++ (List.replicate n.words .any ++ x.below)⟩ t) :
    ∃ vals u, vals.length = f.nLocals + f.nArgs ∧ ReflTransGen (StepIn D site.place.image.inside) t u ∧
      At site.window (x.at' 0) ⟨.addr x.areas.args, .addr x.areas.frame, x.start vals⟩ u := by
  have room' : x.below.length + n.words + 4 + (f.nLocals + f.nArgs) ≤ site.window.size := room
  obtain ⟨header, linked, code, place, low⟩ := ProgramSite.header_code x.holds
  have four : (Sim.frame x.b x.a x.back).length = 4 := rfl
  have reserves : Takes D site.place.image site.addr site.window.size (genProcHeader f.nLocals f.nArgs)
      ⟨.addr x.frame, .addr (x.below.length + n.words + 4),
        Sim.frame x.b x.a x.back ++ (List.replicate n.words Val.any ++ x.below)⟩ _ := .alloc (by
    rw [List.length_append, List.length_append, List.length_replicate, four]
    omega)
  obtain ⟨u, steps, there⟩ := reserves site.window (le_refl _) ProgramSite.loaded header linked _ (place ▸ low) code t here
  obtain ⟨vals, length, revealed⟩ := At.reveal there
  refine ⟨vals, u, length, steps, ?_⟩
  show At site.window (site.at' f x.pos 0) _ u
  rw [place]
  exact revealed

/-- **A return**: the result is stored below the frame, and the processor comes behind the call. -/
theorem leaves {vals : List Word} (length : vals.length = f.nLocals + f.nArgs) {ty : Ty} {e : Expr n}
    (found : f.trees[c.1]? = some (.ret n ty e)) (here : x.Here (x.start vals) c t) :
    ∃ u below, ReflTransGen (StepIn D site.place.image.inside) t u ∧
      At site.window x.back ⟨.word x.a, .word x.b, n.stack (e.eval .target c.2) below⟩ u ∧
      ProgramSite.Kept x.frame f.nParams x.below below := by
  obtain ⟨ws, framed, at'⟩ := here
  obtain ⟨code, laid, codeAt, -, low⟩ := ProgramSite.tree_code x.holds found
  have mem := List.mem_of_getElem? found
  have fit : e.Fits x.areas.count := f.fits _ mem
  have height := Tree.height_le mem
  have tall : (Tree.ret n ty e).height = e.height := rfl
  have room := x.room
  have inFrame := x.inFrame
  have routines : NamesRoutines site.addr site.place.image := site.routines
  have total : ws.length = x.below.length + n.words + 4 + (f.nLocals + f.nArgs) := framed.length.trans (start_length length)
  have few : mathDepth = 64 := rfl
  have two : n.words ≤ 2 := by cases n <;> decide
  let mid := Sim.frame x.b x.a x.back ++ List.replicate n.words Val.any
  have midLength : mid.length = n.words + 4 := by
    rw [List.length_append, List.length_replicate, Nat.add_comm]
    rfl
  have start : x.start vals = vals.map .word ++ (mid ++ x.below) := by
    unfold Activation.start
    rw [List.append_assoc]
  -- no variable is in the frame, so it is as it was
  obtain ⟨above, below, rfl, count, same⟩ := split_stack (framed.length.trans (congrArg _ start)) fun k first last => by
    rw [← start]
    refine framed.other k ?_
    rintro (⟨area, j, inside, rfl⟩ | ⟨inside, -⟩)
    · cases area with
      | locals =>
        change x.below.length + n.words + 4 + f.nArgs + j < _ at last
        omega
      | params =>
        change j < f.nParams at inside
        change x.below.length ≤ x.frame + j at first
        omega
    · change x.below.length + n.words + 4 ≤ k at inside
      omega
  let head := above ++ Sim.frame x.b x.a x.back
  have whole : above ++ (mid ++ below) = head ++ (List.replicate n.words Val.any ++ below) := by
    simp only [mid, head, List.append_assoc]
  rw [show Tree.out f.nArgs (.ret n ty e) = (e.code f.nArgs ++ (genResult n.words ++ [retEntry])).map .op from rfl,
    layout_ops] at laid
  have value : Takes D site.place.image site.addr site.window.size (e.code f.nArgs)
      ⟨.addr x.areas.args, .addr x.areas.frame, above ++ (mid ++ below)⟩ _ :=
    e.takes_framed routines fit framed [] (by rw [List.nil_append]; omega)
  have stores : Takes D site.place.image site.addr site.window.size (genResult n.words)
      ⟨.addr x.areas.args, .addr x.areas.frame, n.stack (e.eval .target c.2) (above ++ (mid ++ below))⟩
      ⟨.addr x.areas.args, .addr x.areas.frame, head ++ n.stack (e.eval .target c.2) below⟩ := by
    rw [whole] at total ⊢
    have result : Takes D site.place.image site.addr site.window.size (genResult n.words)
        ⟨.addr x.areas.args, .addr (below.length + n.words + 4),
          n.stack (e.eval .target c.2) (head ++ (List.replicate n.words .any ++ below))⟩ _ := .result _ head (by omega)
    rw [count] at result
    exact result
  obtain ⟨first, rest, isFirst, isRest, rfl⟩ := linked_append laid
  obtain ⟨second, last, isSecond, isLast, rfl⟩ := linked_append isRest
  obtain rfl : [Op.ret.word] = last := Option.some.inj isLast
  rw [List.length_append, List.length_append] at low
  obtain ⟨u, steps, there⟩ := value site.window (le_refl _) ProgramSite.loaded first isFirst _ (by omega) codeAt.left t at'
  obtain ⟨v, more, there⟩ := stores site.window (le_refl _) ProgramSite.loaded second isSecond _ (by omega) codeAt.right.left u
    there
  have depth : x.areas.frame = (n.stack (e.eval .target c.2) below).length + 4 := by
    rw [Size.stack_length, count]
    rfl
  rw [depth, List.append_assoc] at there
  obtain ⟨w, ret, back⟩ := there.ret (D := D) codeAt.right.right x.low
  refine ⟨w, below, (steps.trans more).tail ret, back, count, fun k outside => ?_⟩
  by_cases inside : k < x.below.length
  · rw [same k inside, framed.other k, start, List.reverse_append, List.reverse_append, List.append_assoc,
      List.getElem?_append_left (by rw [List.length_reverse]; exact inside)]
    rintro (⟨area, j, low, rfl⟩ | ⟨within, -⟩)
    · cases area with
      | locals =>
        change x.below.length + n.words + 4 + f.nArgs + j < x.below.length at inside
        omega
      | params => exact outside ⟨Nat.le_add_right _ _, Nat.add_lt_add_left low _⟩
    · change x.below.length + n.words + 4 ≤ k at within
      omega
  · rw [List.getElem?_eq_none (by rw [List.length_reverse]; omega), List.getElem?_eq_none (by rw [List.length_reverse]; omega)]

end Activation

/-! ### Programs -/

namespace ProgramSite

variable {ι : Type} {D : Devices ι} {prog : Program} {site : ProgramSite ι prog}

/-- **Calls of a program are completed**, by induction on the depth of the calls in them. -/
theorem completes (depth : Nat) : site.Completes D (prog.ByCode depth) (depth * prog.room) := by
  induction depth with
  | zero => exact fun name n argv v none => none.elim
  | succ depth ih =>
    rintro name n argv v ⟨f, mem, rfl, count, gives⟩ frame below b a back inFrame passed low deep t here
    obtain ⟨pos, words, holds⟩ := site.holds mem
    have most : f.room ≤ prog.room := le_foldr_max (List.mem_map_of_mem mem)
    rw [Nat.succ_mul] at deep
    let x : Activation site f n := ⟨pos, words, holds, frame, below, b, a, back, low, count ▸ inFrame, by omega⟩
    have room : x.total ≤ site.window.size := by
      show below.length + n.words + 4 + (f.nLocals + f.nArgs) ≤ _
      have two : n.words ≤ 2 := by cases n <;> decide
      unfold Procedure.room at most
      omega
    obtain ⟨vals, u, length, steps, there⟩ := x.enters room here
    obtain ⟨c, ty, e, run, found, -, rfl⟩ := gives (f.first vals argv) fun j w found => by
      show argv.getD j 0 = w
      rw [List.getD_eq_getElem?_getD, found, Option.getD_some]
    have deep' : below.length + f.room + depth * prog.room ≤ site.window.size := by omega
    obtain ⟨w, more, last⟩ := x.run ih deep' (x.start_length length) run
      ⟨_, x.start_framed length count passed, there⟩
    obtain ⟨z, below', rest, done, kept⟩ := x.leaves length found last
    exact ⟨z, below', (steps.trans more).trans rest, done, count ▸ kept⟩

end ProgramSite

/-- **A call of a procedure of a program**: the processor is before it, the words of the parameters are the first ones
where `BP` points to, and the stack is large enough for calls in it up to a depth. -/
structure ProgramCall {ι : Type} {prog : Program} (site : ProgramSite ι prog) (name : Text) (n : Size) (argv : List Word)
    (depth : Nat) where
  t : Cpu (Demux ι)
  pc : Nat
  ap : Val
  frame : Nat
  below : List Val
  call : CodeAt site.window (fun _ => True) pc [(callOp (some name) n.words).word, site.symbols name]
  back : pc + 2 < 0x80000
  stack : At site.window pc ⟨ap, .addr frame, below⟩ t
  inFrame : frame + argv.length ≤ below.length
  passed : ProgramSite.Passed argv frame below
  deep : below.length + depth * prog.room ≤ site.window.size

/-- **The result is delivered**: the processor comes behind the call with the value on the stack, the low word first; of
what is below it only the parameters have changed. -/
def ProgramCall.Delivers {ι : Type} {prog : Program} {site : ProgramSite ι prog} {name : Text} {n : Size} {argv : List Word}
    {depth : Nat} (call : ProgramCall site name n argv depth) (D : Devices ι) (v : BitVec n.bits) : Prop :=
  ∃ u below', Steps D call.t u ∧ At site.window (call.pc + 2) ⟨call.ap, .addr call.frame, n.stack v below'⟩ u ∧
    ProgramSite.Kept call.frame argv.length call.below below'

theorem ProgramCall.delivers {ι : Type} {D : Devices ι} {prog : Program} {site : ProgramSite ι prog} {name : Text} {n : Size}
    {argv : List Word} {depth : Nat} (call : ProgramCall site name n argv depth) {v : BitVec n.bits}
    (returns : prog.ByCode depth name n argv v) : call.Delivers D v := by
  have deep := call.deep
  have room : call.below.length + n.words + 4 ≤ site.window.size := by
    cases depth with
    | zero => exact returns.elim
    | succ depth =>
      obtain ⟨f, mem, -⟩ := returns
      have most : f.room ≤ prog.room := le_foldr_max (List.mem_map_of_mem mem)
      have two : n.words ≤ 2 := by cases n <;> decide
      unfold Procedure.room at most
      rw [Nat.succ_mul] at deep
      omega
  have sized : instruction (demuxOps D) (callOp (some name) n.words) = callW (demuxOps D) (BitVec.ofNat 16 n.words) :=
    instruction_callOp (by cases n <;> decide)
  obtain ⟨u, enter, entered⟩ := At.callLabel sized call.stack (code_anywhere call.call (le_of_lt call.back)) room
  obtain ⟨w, below', steps, there, kept⟩ := site.completes (D := D) depth name n argv v returns call.frame call.below
    call.t.bp call.t.ap (call.pc + 2) call.inFrame call.passed call.back deep u entered
  refine ⟨w, below', ReflTransGen.mono (fun _ _ step => step.1) _ _ (.head enter steps), ?_, kept⟩
  refine there.move (.refl w) rfl there.pc rfl ?_ ?_ rfl
  · rw [show w.ap = call.t.ap from there.ap]
    exact call.stack.ap
  · rw [show w.bp = call.t.bp from there.bp]
    exact call.stack.bp

/-- **Programs are compiled right**: the translator puts out the code of the trees, and a call of a procedure delivers what
it returns by the meaning of the code, and so what it returns by the meaning of C if nothing in it depends on the sign of
a negative number; procedures may call each other and themselves. -/
theorem program_compiled {ι : Type} (D : Devices ι) (prog : Program) (s : Translator) :
    (Translator.parseLines prog.lines s).map Translator.output = some (s.output ++ prog.out) ∧
    ∀ (site : ProgramSite ι prog) name n argv depth (call : ProgramCall site name n argv depth) v,
      (prog.ByCode depth name n argv v → call.Delivers D v) ∧ (prog.ByLanguage depth name n argv v → call.Delivers D v) :=
  ⟨prog.parsed s, fun _ _ _ _ _ call _ => ⟨call.delivers, fun returns => call.delivers returns.target⟩⟩

/-! ### A program that calls itself -/

/-- The name of the procedure. -/
def sumName : ProcName where
  text := "sum".toList
  word := ⟨by decide, noBlanks (by decide), by decide⟩

/-- `if (n == 0) return 0; l = sum(n - 1); return l + n;` -/
def sum : Procedure where
  name := sumName
  nLocals := 1
  nArgs := 1
  nParams := 1
  trees :=
    [.branch .one .ne .unsigned (.var .one .unsigned .params 0) (.cnst .one .unsigned 0) 1,
     .ret .one .unsigned (.cnst .one .unsigned 0),
     .label 1,
     .call .one .unsigned (some (.locals, 0)) sumName
       [⟨.one, .unsigned, .bin .sub .unsigned (.var .one .unsigned .params 0) (.cnst .one .unsigned 1)⟩],
     .ret .one .unsigned (.bin .add .unsigned (.var .one .unsigned .locals 0) (.var .one .unsigned .params 0))]
  fits := by
    refine List.forall_iff_forall_mem.mp ?_
    simp only [List.Forall, Tree.Fits, Expr.Fits, Expr.vars]
    decide
  small := by decide

/-- The names of all routines. -/
def routineNames : List (Text × MathLabel) :=
  helperNames ++ [Cmp.eq, .ne, .order .ge, .order .gt, .order .le, .order .lt].flatMap fun c =>
    [Ty.signed, .unsigned].map fun t => ("__builtin_cmp_".toList ++ opname c.lcc t .two, c.label t)

/-- The labels of the program, behind a call at 256. -/
def sumSymbols : Text → Word :=
  symbolsOf routineNames fun name => if name = "sum".toList then 0x21 else 0x23

/-- The code of the program. -/
def sumWords : List Word := (layout (wordAddr sumSymbols) 0x102 (Program.out [sum])).getD []

/-- The name of a comparison of double words. -/
theorem readWord_compare (c : Cmp) (t : Ty) (target : Nat) :
    (readWord (c.text t target)).1 = "__builtin_cmp_".toList ++ opname c.lcc t .two := by
  have text : c.text t target = ("__builtin_cmp_".toList ++ opname c.lcc t .two) ++ ' ' :: labelText target :=
    (List.append_assoc _ _ _).symm
  rw [text, readWord_operand]
  · refine noBlanks ?_
    rcases c with _ | _ | c
    · cases t <;> decide
    · cases t <;> decide
    · cases c <;> cases t <;> decide
  · exact List.cons_ne_nil _ _

/-- The program on a machine, behind a call. -/
def sumSite : ProgramSite Unit [sum] where
  symbols := sumSymbols
  org := 512
  fits := library_fits
  window := codeWindow ([(callOp (some sumName.text) 1).word, sumSymbols sumName.text] ++ sumWords) [2]
  pos := 0x102
  words := sumWords
  assembled := by decide +kernel
  linked := by decide +kernel
  code := (codeMachine_code (by decide +kernel)).right
  low := by decide +kernel
  library := codeMachine_library
  routines h t n := by cases h <;> cases t <;> cases n <;> rfl
  comparisons c t target := by
    unfold wordAddr
    rw [readWord_compare]
    rcases c with _ | _ | c
    · cases t <;> rfl
    · cases t <;> rfl
    · cases c <;> cases t <;> rfl

theorem sum_back : 0x100 + 2 < 0x80000 := by decide

/-- The call, with the argument 2. -/
def sumCall : ProgramCall sumSite sumName.text .one [2] 3 where
  t := sumSite.window.k
  pc := 0x100
  ap := .addr 0
  frame := 0
  below := [.word 2]
  call := (codeMachine_code (by decide +kernel)).left
  back := sum_back
  stack := codeMachine_stack (by decide)
  inFrame := by decide
  passed j w found := by
    obtain ⟨low, rfl⟩ := List.getElem?_eq_some_iff.mp found
    obtain rfl : j = 0 := Nat.lt_one_iff.mp low
    rfl
  deep := show 1 + 3 * Program.room [sum] ≤ 1024 by decide

/-- The sum of the numbers up to one. -/
def total : Nat → Word
  | 0 => 0
  | k + 1 => total k + BitVec.ofNat 16 (k + 1)

/-- It returns the sum, by induction on the argument. -/
theorem sum_returns (k : Nat) (small : k < 0x10000) :
    Program.ByLanguage [sum] (k + 1) sumName.text .one [BitVec.ofNat 16 k] (total k) := by
  induction k with
  | zero =>
    refine ⟨sum, List.mem_cons_self, rfl, rfl, fun env params => ?_⟩
    have param : env .params 0 = 0 := params 0 _ rfl
    have stays : Tree.step .language sum.trees (0, env)
        (.branch .one .ne .unsigned (.var .one .unsigned .params 0) (.cnst .one .unsigned 0) 1) = some (1, env) :=
      if_neg fun is => absurd param (of_decide_eq_true is)
    exact ⟨(1, env), .unsigned, .cnst .one .unsigned 0, .single (.tree rfl ⟨trivial, trivial, id⟩ stays), rfl, trivial, rfl⟩
  | succ k ih =>
    refine ⟨sum, List.mem_cons_self, rfl, rfl, fun env params => ?_⟩
    have param : env .params 0 = BitVec.ofNat 16 (k + 1) := params 0 _ rfl
    have more : env .params 0 ≠ 0 := fun none => by
      have value := congrArg BitVec.toNat (param.symm.trans none)
      rw [BitVec.toNat_ofNat, Nat.mod_eq_of_lt small] at value
      exact Nat.succ_ne_zero k value
    have goes : Tree.step .language sum.trees (0, env)
        (.branch .one .ne .unsigned (.var .one .unsigned .params 0) (.cnst .one .unsigned 0) 1) = some (3, env) :=
      if_pos (decide_eq_true more)
    have less : env .params 0 - 1#16 = BitVec.ofNat 16 k := by
      rw [param, BitVec.ofNat_add]
      exact BitVec.add_sub_cancel _ _
    have called : Program.ByLanguage [sum] (k + 1) sumName.text .one [env .params 0 - 1#16] (total k) := less ▸ ih (by omega)
    have calls : sum.Step .language (fun env tree => tree.Plain env) (Program.ByLanguage [sum] (k + 1)) (3, env)
        (4, env.result (some (.locals, 0)) .one (total k)) :=
      .call (c := (3, env)) (n := .one) rfl (List.forall_mem_singleton.mpr ⟨trivial, trivial⟩) called
    refine ⟨_, .unsigned, .bin .add .unsigned (.var .one .unsigned .locals 0) (.var .one .unsigned .params 0),
      .head (.tree rfl ⟨trivial, trivial, id⟩ goes) (.single calls), rfl, ⟨trivial, trivial⟩, ?_⟩
    show total k + env .params 0 = total (k + 1)
    rw [param]
    rfl

/-- The call leaves 3. -/
theorem program_compiled_sum : sumCall.Delivers noDevices 3 :=
  ((program_compiled noDevices [sum] ⟨[], 0, 0, 0⟩).2 sumSite sumName.text .one [2] 3 sumCall 3).2
    (sum_returns 2 (by decide))

end RlCpu.Binutils
