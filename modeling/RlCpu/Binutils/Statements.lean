/-
**Programs of integer procedures (`emit`, `function` and `dumptree` of `xbytecode.c`, `parseLine` of `trans2.cpp`).**

A `Tree` is one of the list that `emit` goes through: an assignment to a variable, a call with its arguments, a branch, a
jump, a label or a return. A `Procedure` is such a list, with the words of its locals and those for the arguments of its
calls; a `Program` is a list of procedures, which may call each other and themselves.

* `Program.Returns`: what a call returns, by a meaning of the operators, with calls in it up to a depth.
* `Program.Returns.target`: a call by the meaning of C whose steps are `Plain` is one by the meaning of the code.
* `Program.parsed`: what the translator puts out for a program.
-/

import RlCpu.Binutils.Expressions

namespace RlCpu.Binutils

open RlCpu.Kernel RlCpu.Lib RlCpu.Sim Relation

/-! ### Trees -/

/-- A comparison of a branch. -/
inductive Cmp
  | eq
  | ne
  | order (c : Order)
  deriving DecidableEq

/-- Whether a comparison holds. -/
def Cmp.holds (M : Meaning) (t : Ty) : (n : Size) → Cmp → BitVec n.bits → BitVec n.bits → Bool
  | _, .eq, a, b => a = b
  | _, .ne, a, b => a ≠ b
  | .one, .order c, a, b => match t with
    | .signed => c.holds a.toInt b.toInt
    | .unsigned => c.holds a.toNat b.toNat
  | .two, .order c, a, b => match t with
    | .signed => M.order c a b
    | .unsigned => c.holds a.toNat b.toNat

/-- The comparison of double words goes by the sign, and the low words decide it for negative numbers. -/
def Cmp.Negative (t : Ty) : (n : Size) → Cmp → BitVec n.bits → BitVec n.bits → Prop
  | .two, .order _, a, b => t = .signed ∧ high a = high b ∧ (high a).msb = true ∧ low a ≠ low b
  | _, _, _, _ => False

theorem Cmp.holds_language {t : Ty} {n : Size} {c : Cmp} {a b : BitVec n.bits} (plain : ¬ c.Negative t n a b) :
    c.holds .target t n a b = c.holds .language t n a b := by
  cases n with
  | one => cases c <;> rfl
  | two =>
    cases c with
    | eq => rfl
    | ne => rfl
    | order c =>
      cases t with
      | unsigned => rfl
      | signed => exact (signedCode_eq_iff c a b).mpr fun negative => plain ⟨rfl, negative⟩

/-- The words of the variables of a procedure. -/
abbrev Env := Area → Nat → Word

/-- A value put into a variable. -/
def Env.store (env : Env) (area : Area) (offset : Nat) : (n : Size) → BitVec n.bits → Env
  | .one, a => fun x j => if x = area ∧ j = offset then a else env x j
  | .two, a => fun x j =>
      if x = area ∧ j = offset + 1 then high a else if x = area ∧ j = offset then low a else env x j

/-- A name of a procedure: a word of a line that is no number. -/
structure ProcName where
  text : Text
  word : text ≠ [] ∧ (∀ c ∈ text, isSpace c = false) ∧ isNumeric text = false

/-- An argument of a call. -/
structure Argument where
  size : Size
  ty : Ty
  value : Expr size

/-- The words of an argument, the low word first. -/
def Argument.words (M : Meaning) (env : Env) (a : Argument) : List Word :=
  (a.size.wordsOf (a.value.eval M env)).reverse

/-- **A tree of the list of a procedure**; a call stands for the trees of its arguments and its own. Labels are numbers. -/
inductive Tree
  | assign (n : Size) (t : Ty) (area : Area) (offset : Nat) (e : Expr n)
  | call (n : Size) (t : Ty) (dest : Option (Area × Nat)) (callee : ProcName) (args : List Argument)
  | branch (n : Size) (c : Cmp) (t : Ty) (a b : Expr n) (target : Nat)
  | jump (target : Nat)
  | label (name : Nat)
  | ret (n : Size) (t : Ty) (e : Expr n)

/-- The tree is the label `name`. -/
def Tree.isLabel (name : Nat) : Tree → Bool
  | .label l => l = name
  | _ => false

/-- The place behind a label. -/
def labelPlace (trees : List Tree) (name : Nat) : Option Nat := (trees.findIdx? (Tree.isLabel name)).map (· + 1)

/-- A step from the place and the variables `c`, but for calls and returns. -/
def Tree.step (M : Meaning) (trees : List Tree) (c : Nat × Env) : Tree → Option (Nat × Env)
  | .assign n _ area offset e => some (c.1 + 1, c.2.store area offset n (e.eval M c.2))
  | .branch n cmp t a b target =>
      if cmp.holds M t n (a.eval M c.2) (b.eval M c.2) then (labelPlace trees target).map fun i => (i, c.2)
      else some (c.1 + 1, c.2)
  | .jump target => (labelPlace trees target).map fun i => (i, c.2)
  | .label _ => some (c.1 + 1, c.2)
  | .call _ _ _ _ _ => none
  | .ret _ _ _ => none

/-- The variables with the result of a call. -/
def Env.result (env : Env) (dest : Option (Area × Nat)) (n : Size) (v : BitVec n.bits) : Env :=
  match dest with
  | none => env
  | some place => env.store place.1 place.2 n v

/-- Which trees a run may go through, with the variables before them. -/
abbrev Allowed := Env → Tree → Prop

/-- Nothing in the tree depends on the sign of a negative number. -/
def Tree.Plain (env : Env) : Tree → Prop
  | .assign _ _ _ _ e => e.NonNegative env
  | .call _ _ _ _ args => ∀ a ∈ args, a.value.NonNegative env
  | .branch n c t a b _ => a.NonNegative env ∧ b.NonNegative env ∧
      ¬ c.Negative t n (a.eval .language env) (b.eval .language env)
  | .jump _ => True
  | .label _ => True
  | .ret _ _ e => e.NonNegative env

theorem Tree.step_language {trees : List Tree} {c : Nat × Env} {tree : Tree} (plain : tree.Plain c.2) :
    tree.step .target trees c = tree.step .language trees c := by
  cases tree with
  | assign n t area offset e =>
    show some (c.1 + 1, _) = some (c.1 + 1, _)
    rw [e.eval_language c.2 plain]
  | call n t dest callee args => rfl
  | branch n cmp t a b target =>
    obtain ⟨plainA, plainB, sign⟩ := plain
    show (if _ then _ else _) = (if _ then _ else _)
    rw [a.eval_language c.2 plainA, b.eval_language c.2 plainB, Cmp.holds_language sign]
  | jump target => rfl
  | label name => rfl
  | ret n t e => rfl

/-- The number of words of the arguments of a call. -/
def argCount (args : List Argument) : Nat := (args.map fun a => a.size.words).sum

/-- The words of the arguments of a call. -/
def argWords (M : Meaning) (env : Env) (args : List Argument) : List Word := args.flatMap (Argument.words M env)

theorem argWords_language {env : Env} {args : List Argument} (plain : ∀ a ∈ args, a.value.NonNegative env) :
    argWords .target env args = argWords .language env args := by
  refine List.flatMap_congr fun a mem => ?_
  unfold Argument.words
  rw [a.value.eval_language env (plain a mem)]

/-! ### Procedures -/

/-- The words of the variables. -/
def varCount (nLocals nParams : Nat) : Area → Nat
  | .locals => nLocals
  | .params => nParams

/-- The variables of an expression are there. -/
def Expr.Fits {n : Size} (e : Expr n) (count : Area → Nat) : Prop := ∀ x ∈ e.vars, x.2 < count x.1

/-- The variables of a tree, and the words for its arguments, are there. -/
def Tree.Fits (count : Area → Nat) (nArgs : Nat) : Tree → Prop
  | .assign n _ area offset e => offset + n.words ≤ count area ∧ e.Fits count
  | .call n _ dest _ args => (∀ place ∈ dest, place.2 + n.words ≤ count place.1) ∧ argCount args ≤ nArgs ∧
      ∀ a ∈ args, a.value.Fits count
  | .branch _ _ _ a b _ => a.Fits count ∧ b.Fits count
  | .jump _ => True
  | .label _ => True
  | .ret _ _ e => e.Fits count

/-- **A procedure.** The compiler knows the words of its parameters. -/
structure Procedure where
  name : ProcName
  nLocals : Nat
  nArgs : Nat
  nParams : Nat
  trees : List Tree
  fits : ∀ tree ∈ trees, tree.Fits (varCount nLocals nParams) nArgs
  small : nLocals + nArgs < 0x10000

/-- The results `v` of calls of a procedure by its name, for the words of its parameters. -/
abbrev Calls := Text → (n : Size) → List Word → BitVec n.bits → Prop

namespace Procedure

variable (M : Meaning) (allowed : Allowed) (calls : Calls) (f : Procedure)

/-- A step of a procedure. -/
inductive Step (c : Nat × Env) : Nat × Env → Prop
  | tree {tree : Tree} {c' : Nat × Env} (here : f.trees[c.1]? = some tree) (may : allowed c.2 tree)
      (next : tree.step M f.trees c = some c') : Step c c'
  | call {n : Size} {t : Ty} {dest : Option (Area × Nat)} {callee : ProcName} {args : List Argument} {v : BitVec n.bits}
      (here : f.trees[c.1]? = some (.call n t dest callee args)) (may : allowed c.2 (.call n t dest callee args))
      (called : calls callee.text n (argWords M c.2 args) v) : Step c (c.1 + 1, c.2.result dest n v)

/-- What a run returns that starts with the variables `env`. -/
def Gives (n : Size) (env : Env) (v : BitVec n.bits) : Prop :=
  ∃ c t e, ReflTransGen (f.Step M allowed calls) (0, env) c ∧ f.trees[c.1]? = some (.ret n t e) ∧
    allowed c.2 (.ret n t e) ∧ e.eval M c.2 = v

variable {M f}

/-- **A run of C through plain trees is a run of the code.** -/
theorem Gives.target {calls calls' : Calls} (more : ∀ name n argv v, calls name n argv v → calls' name n argv v) {n : Size}
    {env : Env} {v : BitVec n.bits} (gives : f.Gives .language (fun env tree => tree.Plain env) calls n env v) :
    f.Gives .target (fun _ _ => True) calls' n env v := by
  obtain ⟨c, t, e, run, last, plain, value⟩ := gives
  refine ⟨c, t, e, ReflTransGen.mono (fun c c' step => ?_) _ _ run, last, trivial, (e.eval_language c.2 plain).trans value⟩
  cases step with
  | tree here may next => exact .tree here trivial ((Tree.step_language may).trans next)
  | call here may called => exact .call here trivial (argWords_language may ▸ more _ _ _ _ called)

end Procedure

/-- **A program.** -/
abbrev Program := List Procedure

/-- **What a call returns**, with calls up to a depth, whatever the locals of a procedure are at first. -/
def Program.Returns (M : Meaning) (allowed : Allowed) (prog : Program) : Nat → Calls
  | 0, _, _, _, _ => False
  | depth + 1, name, n, argv, v => ∃ f ∈ prog, f.name.text = name ∧ argv.length = f.nParams ∧
      ∀ env : Env, (∀ j w, argv[j]? = some w → env .params j = w) →
        f.Gives M allowed (Program.Returns M allowed prog depth) n env v

/-- What a call returns by the code. -/
abbrev Program.ByCode (prog : Program) : Nat → Calls := prog.Returns .target fun _ _ => True

/-- What a call returns by C, where nothing depends on the sign of a negative number. -/
abbrev Program.ByLanguage (prog : Program) : Nat → Calls := prog.Returns .language fun env tree => tree.Plain env

/-- **What a plain call returns by C it returns by the code.** By induction on the depth. -/
theorem Program.Returns.target {prog : Program} {depth : Nat} : ∀ {name : Text} {n : Size} {argv : List Word}
    {v : BitVec n.bits}, prog.ByLanguage depth name n argv v → prog.ByCode depth name n argv v := by
  induction depth with
  | zero => exact fun none => none
  | succ depth ih =>
    rintro name n argv v ⟨f, mem, named, count, gives⟩
    exact ⟨f, mem, named, count, fun env params => (gives env params).target fun _ _ _ _ => ih⟩

/-! ### Lines -/

/-- The operator of the compiler. -/
def Cmp.lcc : Cmp → LccOp
  | .eq => .eq
  | .ne => .ne
  | .order .ge => .ge
  | .order .gt => .gt
  | .order .le => .le
  | .order .lt => .lt

/-- The branch for words, by their type. -/
def Cmp.rc (t : Ty) : Cmp → Rc
  | .eq => .eq
  | .ne => .ne
  | .order .ge => match t with | .signed => .ge | .unsigned => .uge
  | .order .gt => match t with | .signed => .gt | .unsigned => .ugt
  | .order .le => match t with | .signed => .le | .unsigned => .ule
  | .order .lt => match t with | .signed => .lt | .unsigned => .ult

/-- The text of a label. -/
def labelText (name : Nat) : Text := '$' :: natText name

/-- The line of a branch. -/
def Cmp.line (c : Cmp) (t : Ty) (n : Size) (target : Nat) : Text := opname c.lcc t n ++ ' ' :: labelText target

/-- What `parseOp` puts out for a branch. -/
def Cmp.entries (c : Cmp) (t : Ty) (n : Size) (target : Nat) : List RcEntry :=
  match n with
  | .one => [rcEntry (c.rc t) (labelText target) .word .link]
  | .two => (genBuiltinCmp (c.line t .two target) 2 (labelText target)).getD []

/-- `dumptree`, of an argument. -/
def Argument.lines (a : Argument) : List Text := a.value.lines ++ [opname .arg a.ty a.size]

/-- `dumptree`, of a call of a procedure. -/
def ProcName.lines (callee : ProcName) (t : Ty) (n : Size) : List Text := ["ADDRGP1 ".toList ++ callee.text, opname .call t n]

/-- `dumptree` and `emit`, and the label of a forest. -/
def Tree.lines : Tree → List Text
  | .assign n t area offset e => [area.line offset] ++ e.lines ++ [opname .asgn t n]
  | .call n t none callee args =>
      args.flatMap Argument.lines ++ callee.lines t n ++ ["DISCARD ".toList ++ natText n.words]
  | .call n t (some (area, offset)) callee args =>
      args.flatMap Argument.lines ++ ([area.line offset] ++ callee.lines t n) ++ [opname .asgn t n]
  | .branch n c t a b target => a.lines ++ b.lines ++ [c.line t n target]
  | .jump target => ["ADDRGP1 ".toList ++ labelText target, "JUMPV".toList]
  | .label name => ["LABELV ".toList ++ labelText name]
  | .ret n t e => e.lines ++ [opname .ret t n]

/-- What the translator puts out for an argument, behind `cArg` words of others. -/
def Argument.code (nArgs cArg : Nat) (a : Argument) : List RcEntry :=
  a.value.code nArgs ++ (argEntries cArg a.size.words).getD []

/-- What the translator puts out for the arguments of a call. -/
def argsCode (nArgs : Nat) : Nat → List Argument → List RcEntry
  | _, [] => []
  | cArg, a :: args => a.code nArgs cArg ++ argsCode nArgs (cArg + a.size.words) args

/-- What the translator puts out for the call itself. -/
def ProcName.code (callee : ProcName) (n : Size) : List RcEntry := addrgEntry callee.text :: (callEntry n.words none).toList

/-- What the translator puts out for a call with its arguments. -/
def callCode (nArgs : Nat) (n : Size) (dest : Option (Area × Nat)) (callee : ProcName) (args : List Argument) : List RcEntry :=
  match dest with
  | none => argsCode nArgs 0 args ++ callee.code n ++ [rcEntry .discard (natText n.words) .word .char]
  | some (area, offset) =>
      argsCode nArgs 0 args ++ (area.entry nArgs offset :: callee.code n) ++ (sizedEntry .store n.words).toList

/-- What the translator puts out for a tree. -/
def Tree.out (nArgs : Nat) : Tree → List OutLine
  | .assign n _ area offset e =>
      (area.entry nArgs offset :: e.code nArgs ++ (sizedEntry .store n.words).toList).map .op
  | .call n _ dest callee args => (callCode nArgs n dest callee args).map .op
  | .branch n c t a b target => (a.code nArgs ++ b.code nArgs ++ c.entries t n target).map .op
  | .jump target => [addrgEntry (labelText target), rcEntry .jump [] .word .none].map .op
  | .label name => [.directive "label".toList (labelText name)]
  | .ret n _ e => (e.code nArgs ++ genRet n.words).map .op

namespace Procedure

/-- What stands behind `proc` and `endproc`. -/
def header (f : Procedure) : Text := f.name.text ++ ' ' :: (natText f.nLocals ++ ' ' :: natText f.nArgs)

/-- `function` -/
def lines (f : Procedure) : List Text :=
  ["proc ".toList ++ f.header] ++ f.trees.flatMap Tree.lines ++ ["endproc ".toList ++ f.header]

/-- What the translator puts out for a procedure. -/
def out (f : Procedure) : List OutLine :=
  [.directive "proc".toList f.header, .directive "label".toList f.name.text] ++ (genProcHeader f.nLocals f.nArgs).map .op ++
    f.trees.flatMap (Tree.out f.nArgs) ++ [.op retEntry, .directive "endproc".toList f.header]

end Procedure

namespace Program

/-- The lines of a program. -/
def lines (prog : Program) : List Text := prog.flatMap Procedure.lines

/-- What the translator puts out for a program. -/
def out (prog : Program) : List OutLine := prog.flatMap Procedure.out

end Program

/-! ### The translator on the lines -/

/-- `output.push_back`, of a part of the output. -/
def Translator.puts (s : Translator) (out : List OutLine) : Translator := { s with output := s.output ++ out }

theorem Translator.puts_puts (s : Translator) (first second : List OutLine) :
    (s.puts first).puts second = s.puts (first ++ second) := by
  unfold puts
  rw [List.append_assoc]

theorem isSpace_labelText (name : Nat) : ∀ c ∈ labelText name, isSpace c = false := by
  intro c mem
  rcases List.mem_cons.mp mem with rfl | mem
  · decide
  · exact isSpace_digit ((natText_isNumber name).2 c mem)

/-- A text that is a word. -/
theorem readWord_self {name : Text} (plain : ∀ c ∈ name, isSpace c = false) (ne : name ≠ []) : (readWord name).1 = name := by
  have word : readWord (name ++ []) = _ := readWord_append plain ne fun c mem => nomatch mem
  rw [List.append_nil] at word
  rw [word]

theorem readWord_labelText (name : Nat) : (readWord (labelText name)).1 = labelText name :=
  readWord_self (isSpace_labelText name) (List.cons_ne_nil _ _)

theorem ProcName.readWord_text (name : ProcName) : (readWord name.text).1 = name.text := readWord_self name.word.2.1 name.word.1

/-- A line with a word behind the operator. -/
theorem readWord_operand {op rest : Text} (plain : ∀ c ∈ op, isSpace c = false) (ne : op ≠ []) :
    readWord (op ++ ' ' :: rest) = (op, ' ' :: rest) :=
  readWord_append plain ne fun d is => by
    obtain rfl := Option.some.inj is
    decide

section Lines

variable (s : Translator) (t : Ty) (n : Size)

theorem parseLine_asgn : Translator.parseLine (opname .asgn t n) s =
    some (s.put (sizedEntry .store n.words).toList) := by
  cases t <;> cases n <;> rfl

theorem parseLine_arg : Translator.parseLine (opname .arg t n) s =
    some { s.put ((argEntries s.cArg n.words).getD []) with cArg := s.cArg + n.words } := by
  cases t <;> cases n <;> rfl

theorem parseLine_call : Translator.parseLine (opname .call t n) s =
    some { s.put (callEntry n.words none).toList with cArg := 0 } := by
  cases t <;> cases n <;> rfl

theorem parseLine_discard : Translator.parseLine ("DISCARD ".toList ++ natText n.words) s =
    some (s.put [rcEntry .discard (natText n.words) .word .char]) := by
  have small : n.words < 10 := by cases n <;> decide
  rw [show natText n.words = _ from Nat.toDigits_of_lt_base small]
  cases n <;> rfl

theorem parseLine_ret : Translator.parseLine (opname .ret t n) s = some (s.put (genRet n.words)) := by
  cases t <;> cases n <;> rfl

theorem parseLine_cmp (c : Cmp) (target : Nat) :
    Translator.parseLine (c.line t n target) s = some (s.put (c.entries t n target)) := by
  have plain : ∀ c : Cmp, (opname c.lcc t n).all (fun d => !isSpace d) = true := by
    intro c
    rcases c with _ | _ | c
    · cases t <;> cases n <;> decide
    · cases t <;> cases n <;> decide
    · cases c <;> cases t <;> cases n <;> decide
  have op : Translator.parseLine (c.line t n target) s = parseOp (c.line t n target) s := by
    rcases c with _ | _ | c
    · cases t <;> cases n <;> rfl
    · cases t <;> cases n <;> rfl
    · cases c <;> cases t <;> cases n <;> rfl
  rw [op]
  unfold parseOp
  rw [show readWord (c.line t n target) = _ from readWord_operand (noBlanks (plain c)) (opname_ne_nil _ _ _), readWord_blank,
    readWord_labelText]
  rcases c with _ | _ | c
  · cases t <;> cases n <;> rfl
  · cases t <;> cases n <;> rfl
  · cases c <;> cases t <;> cases n <;> rfl

theorem parseLine_addrg {name : Text} (word : (readWord name).1 = name) :
    Translator.parseLine ("ADDRGP1 ".toList ++ name) s = some (s.put [addrgEntry name]) := by
  show parseOp ("ADDRGP1".toList ++ ' ' :: name) s = _
  unfold parseOp
  rw [readWord_operand (noBlanks (by decide)) (by decide), readWord_blank, word]
  rfl

theorem parseLine_jump : Translator.parseLine "JUMPV".toList s = some (s.put [rcEntry .jump [] .word .none]) := rfl

theorem parseLine_label (name : Nat) : Translator.parseLine ("LABELV ".toList ++ labelText name) s =
    some (s.puts [.directive "label".toList (labelText name)]) := by
  show parseOp ("LABELV".toList ++ ' ' :: labelText name) s = _
  unfold parseOp
  rw [readWord_operand (noBlanks (by decide)) (by decide), readWord_blank, readWord_labelText]
  rfl

end Lines

theorem Cmp.line_ne_nil (c : Cmp) (t : Ty) (n : Size) (target : Nat) : c.line t n target ≠ [] :=
  List.append_ne_nil_of_left_ne_nil (opname_ne_nil _ _ _) _

theorem Argument.lines_ne_nil (a : Argument) : ∀ line ∈ a.lines, line ≠ [] :=
  List.forall_mem_append.mpr ⟨a.value.lines_ne_nil, List.forall_mem_singleton.mpr (opname_ne_nil _ _ _)⟩

theorem args_ne_nil (args : List Argument) : ∀ line ∈ args.flatMap Argument.lines, line ≠ [] := fun line mem => by
  obtain ⟨a, -, mem⟩ := List.mem_flatMap.mp mem
  exact a.lines_ne_nil line mem

theorem ProcName.lines_ne_nil (callee : ProcName) (t : Ty) (n : Size) : ∀ line ∈ callee.lines t n, line ≠ [] :=
  List.forall_mem_cons.mpr ⟨List.cons_ne_nil _ _, List.forall_mem_singleton.mpr (opname_ne_nil _ _ _)⟩

theorem Tree.lines_ne_nil (tree : Tree) : ∀ line ∈ tree.lines, line ≠ [] := by
  cases tree with
  | call n t dest callee args =>
    have arguments := args_ne_nil args
    have called := callee.lines_ne_nil t n
    cases dest with
    | none =>
      exact List.forall_mem_append.mpr ⟨List.forall_mem_append.mpr ⟨arguments, called⟩,
        List.forall_mem_singleton.mpr (List.cons_ne_nil _ _)⟩
    | some place =>
      exact List.forall_mem_append.mpr ⟨List.forall_mem_append.mpr ⟨arguments, List.forall_mem_append.mpr
        ⟨List.forall_mem_singleton.mpr (place.1.line_ne_nil place.2), called⟩⟩,
        List.forall_mem_singleton.mpr (opname_ne_nil _ _ _)⟩
  | assign n t area offset e =>
    exact List.forall_mem_append.mpr ⟨List.forall_mem_append.mpr
      ⟨List.forall_mem_singleton.mpr (area.line_ne_nil offset), e.lines_ne_nil⟩,
      List.forall_mem_singleton.mpr (opname_ne_nil _ _ _)⟩
  | branch n c t a b target =>
    exact List.forall_mem_append.mpr ⟨List.forall_mem_append.mpr ⟨a.lines_ne_nil, b.lines_ne_nil⟩,
      List.forall_mem_singleton.mpr (c.line_ne_nil t n target)⟩
  | jump target =>
    exact List.forall_mem_cons.mpr ⟨List.cons_ne_nil _ _, List.forall_mem_singleton.mpr (List.cons_ne_nil _ _)⟩
  | label name => exact List.forall_mem_singleton.mpr (List.cons_ne_nil _ _)
  | ret n t e =>
    exact List.forall_mem_append.mpr ⟨e.lines_ne_nil, List.forall_mem_singleton.mpr (opname_ne_nil _ _ _)⟩

theorem Argument.parsed (a : Argument) (s : Translator) : Translator.parseLines a.lines s =
    some { s.put (a.code s.nArgs s.cArg) with cArg := s.cArg + a.size.words } :=
  Translator.parseLines_concat a.value.lines_ne_nil (opname_ne_nil _ _ _) (a.value.parsed s)
    ((parseLine_arg _ a.ty a.size).trans (by rw [s.put_put]; rfl))

/-- The arguments of a call, one behind the other. -/
theorem args_parsed (args : List Argument) (s : Translator) : ∃ cArg,
    Translator.parseLines (args.flatMap Argument.lines) s =
      some { s.put (argsCode s.nArgs s.cArg args) with cArg := cArg } := by
  induction args generalizing s with
  | nil =>
    refine ⟨s.cArg, ?_⟩
    show some s = some { s with output := s.output ++ [] }
    rw [List.append_nil]
  | cons a args ih =>
    obtain ⟨cArg, rest⟩ := ih { s.put (a.code s.nArgs s.cArg) with cArg := s.cArg + a.size.words }
    refine ⟨cArg, ?_⟩
    rw [List.flatMap_cons, Translator.parseLines_append a.lines_ne_nil, a.parsed, Option.bind_some, rest]
    exact congrArg (fun u : Translator => some { u with cArg := cArg }) (s.put_put _ _)

theorem ProcName.parsed (callee : ProcName) (t : Ty) (n : Size) (s : Translator) :
    Translator.parseLines (callee.lines t n) s = some { s.put (callee.code n) with cArg := 0 } := by
  have address : "ADDRGP1 ".toList ++ callee.text ≠ [] := List.cons_ne_nil _ _
  exact Translator.parseLines_concat (List.forall_mem_singleton.mpr address) (opname_ne_nil _ _ _)
    (Translator.parseLines_single address (parseLine_addrg s callee.readWord_text))
    ((parseLine_call _ t n).trans (by rw [s.put_put]; rfl))

/-- **What the translator puts out for a tree**; no argument is left behind. -/
theorem Tree.parsed (tree : Tree) (s : Translator) (pending : s.cArg = 0) :
    Translator.parseLines tree.lines s = some (s.puts (tree.out s.nArgs)) := by
  cases tree with
  | call n t dest callee args =>
    obtain ⟨output, nLocals, nArgs, cArg⟩ := s
    obtain rfl : cArg = 0 := pending
    obtain ⟨cArg, arguments⟩ := args_parsed args ⟨output, nLocals, nArgs, 0⟩
    cases dest with
    | none =>
      have called : Translator.parseLines (args.flatMap Argument.lines ++ callee.lines t n) ⟨output, nLocals, nArgs, 0⟩ =
          some (Translator.put ⟨output, nLocals, nArgs, 0⟩ (argsCode nArgs 0 args ++ callee.code n)) := by
        rw [Translator.parseLines_append (args_ne_nil args), arguments, Option.bind_some, callee.parsed,
          ← Translator.put_put]
        rfl
      exact Translator.parseLines_concat (List.forall_mem_append.mpr ⟨args_ne_nil args, callee.lines_ne_nil t n⟩)
        (List.cons_ne_nil _ _) called ((parseLine_discard _ n).trans (by rw [Translator.put_put]; rfl))
    | some place =>
      have address := place.1.line_ne_nil place.2
      have called : Translator.parseLines (args.flatMap Argument.lines ++ ([place.1.line place.2] ++ callee.lines t n))
          ⟨output, nLocals, nArgs, 0⟩ = some (Translator.put ⟨output, nLocals, nArgs, 0⟩
            (argsCode nArgs 0 args ++ ([place.1.entry nArgs place.2] ++ callee.code n))) := by
        rw [Translator.parseLines_append (args_ne_nil args), arguments, Option.bind_some,
          Translator.parseLines_append (List.forall_mem_singleton.mpr address),
          Translator.parseLines_single address (parseLine_address _ place.1 place.2), Option.bind_some, callee.parsed,
          ← Translator.put_put, ← Translator.put_put]
        rfl
      exact Translator.parseLines_concat (List.forall_mem_append.mpr ⟨args_ne_nil args, List.forall_mem_append.mpr
        ⟨List.forall_mem_singleton.mpr address, callee.lines_ne_nil t n⟩⟩) (opname_ne_nil _ _ _) called
        ((parseLine_asgn _ t n).trans (by rw [Translator.put_put]; rfl))
  | assign n t area offset e =>
    have address : Translator.parseLines [area.line offset] s = some (s.put [area.entry s.nArgs offset]) :=
      Translator.parseLines_single (area.line_ne_nil offset) (parseLine_address s area offset)
    have operand : Translator.parseLines ([area.line offset] ++ e.lines) s =
        some (s.put (area.entry s.nArgs offset :: e.code s.nArgs)) := by
      rw [Translator.parseLines_append (List.forall_mem_singleton.mpr (area.line_ne_nil offset)), address,
        Option.bind_some, e.parsed, s.put_put]
      rfl
    exact Translator.parseLines_concat (List.forall_mem_append.mpr
      ⟨List.forall_mem_singleton.mpr (area.line_ne_nil offset), e.lines_ne_nil⟩) (opname_ne_nil _ _ _) operand
      ((parseLine_asgn _ t n).trans (by rw [s.put_put]; rfl))
  | branch n c t a b target =>
    have operands : Translator.parseLines (a.lines ++ b.lines) s = some (s.put (a.code s.nArgs ++ b.code s.nArgs)) := by
      rw [Translator.parseLines_append a.lines_ne_nil, a.parsed, Option.bind_some, b.parsed, s.put_put]
      rfl
    exact Translator.parseLines_concat (List.forall_mem_append.mpr ⟨a.lines_ne_nil, b.lines_ne_nil⟩)
      (c.line_ne_nil t n target) operands ((parseLine_cmp _ t n c target).trans (by rw [s.put_put]; rfl))
  | jump target =>
    have address : "ADDRGP1 ".toList ++ labelText target ≠ [] := List.cons_ne_nil _ _
    exact Translator.parseLines_concat (List.forall_mem_singleton.mpr address) (List.cons_ne_nil _ _)
      (Translator.parseLines_single address (parseLine_addrg s (readWord_labelText target)))
      ((parseLine_jump _).trans (by rw [s.put_put]; rfl))
  | label name =>
    exact Translator.parseLines_single (List.cons_ne_nil _ _) (parseLine_label s name)
  | ret n t e =>
    exact Translator.parseLines_concat e.lines_ne_nil (opname_ne_nil _ _ _) (e.parsed s)
      ((parseLine_ret _ t n).trans (by rw [s.put_put]; rfl))

theorem parsed_trees (trees : List Tree) (s : Translator) (pending : s.cArg = 0) :
    Translator.parseLines (trees.flatMap Tree.lines) s = some (s.puts (trees.flatMap (Tree.out s.nArgs))) := by
  induction trees generalizing s with
  | nil =>
    show some s = some { s with output := s.output ++ [] }
    rw [List.append_nil]
  | cons tree trees ih =>
    rw [List.flatMap_cons, Translator.parseLines_append tree.lines_ne_nil, tree.parsed s pending, Option.bind_some,
      ih (s.puts (tree.out s.nArgs)) pending, s.puts_puts, List.flatMap_cons]
    rfl

/-- A number in front of a line that goes on. -/
theorem readInt_natText {n : Nat} {rest : Text} (small : n < 2 ^ 31) (ends : EndsNumber rest) :
    readInt (' ' :: (natText n ++ rest)) = some ((n : Int), rest) := by
  obtain ⟨digits, goesOn⟩ := takeWhile_number (natText_isNumber n).2 ends
  have value := decimal_natText n
  obtain ⟨c, more, text, digit⟩ := (natText_isNumber n).cons
  have skip : skipSpace (' ' :: (natText n ++ rest)) = natText n ++ rest := by
    show (natText n ++ rest).dropWhile isSpace = _
    rw [text, List.cons_append]
    exact List.dropWhile_cons_of_neg (by rw [isSpace_digit digit]; decide)
  have sign : readSign (natText n ++ rest) = (1, natText n ++ rest) := by
    rw [text, List.cons_append]
    unfold readSign
    split
    case h_1 is => exact absurd ((List.cons.inj is).1 ▸ digit) (by decide)
    case h_2 is => exact absurd ((List.cons.inj is).1 ▸ digit) (by decide)
    case h_3 => rfl
  have clamp : clampInt (1 * (n : Int)) = n := by
    unfold clampInt
    rw [one_mul, if_neg (by omega), if_neg (by omega)]
  unfold readInt
  rw [skip, sign]
  show (if (natText n ++ rest).takeWhile Char.isDigit = [] then none else _) = _
  rw [digits, if_neg (natText_isNumber n).1, goesOn, value, clamp]

namespace Procedure

variable (f : Procedure) (s : Translator)

theorem header_parsed : procHeader f.header s =
    { output := s.output ++ .directive "label".toList f.name.text :: (genProcHeader f.nLocals f.nArgs).map .op,
      nLocals := f.nLocals, nArgs := f.nArgs, cArg := 0 } := by
  have small := f.small
  have name : readWord f.header = (f.name.text, ' ' :: (natText f.nLocals ++ ' ' :: natText f.nArgs)) :=
    readWord_operand f.name.word.2.1 f.name.word.1
  have locals : readInt (' ' :: (natText f.nLocals ++ ' ' :: natText f.nArgs)) =
      some ((f.nLocals : Int), ' ' :: natText f.nArgs) := readInt_natText (by omega) fun c is => by
    obtain rfl := Option.some.inj is
    decide
  have args : readInt (' ' :: (natText f.nArgs ++ [])) = some ((f.nArgs : Int), []) :=
    readInt_natText (by omega) fun c is => nomatch is
  rw [List.append_nil] at args
  unfold procHeader
  rw [name]
  dsimp only
  rw [locals]
  dsimp only [Option.getD_some]
  rw [args]
  show Translator.put { output := s.output ++ [_], nLocals := f.nLocals, nArgs := f.nArgs, cArg := 0 } _ = _
  unfold Translator.put
  rw [List.append_assoc]
  rfl

theorem proc_parsed : Translator.parseLine ("proc ".toList ++ f.header) s =
    some { output := s.output ++ ([.directive "proc".toList f.header, .directive "label".toList f.name.text] ++
      (genProcHeader f.nLocals f.nArgs).map .op), nLocals := f.nLocals, nArgs := f.nArgs, cArg := 0 } := by
  have word : readWord ("proc".toList ++ ' ' :: f.header) = ("proc".toList, ' ' :: f.header) :=
    readWord_operand (noBlanks (by decide)) (by decide)
  show parseDirectiveLine ("proc".toList ++ ' ' :: f.header) s = _
  unfold parseDirectiveLine
  rw [word]
  show some (procHeader f.header (s.putDirective "proc".toList f.header)) = _
  rw [header_parsed]
  show some (Translator.mk (s.output ++ [_] ++ _) _ _ _) = _
  rw [List.append_assoc]
  rfl

theorem endproc_parsed : Translator.parseLine ("endproc ".toList ++ f.header) s =
    some (s.puts [.op retEntry, .directive "endproc".toList f.header]) := by
  have word : readWord ("endproc".toList ++ ' ' :: f.header) = ("endproc".toList, ' ' :: f.header) :=
    readWord_operand (noBlanks (by decide)) (by decide)
  show parseDirectiveLine ("endproc".toList ++ ' ' :: f.header) s = _
  unfold parseDirectiveLine
  rw [word]
  show some (Translator.mk (s.output ++ [_] ++ [_]) _ _ _) = _
  rw [List.append_assoc]
  rfl

/-- **What the translator puts out for a procedure.** -/
theorem parsed : Translator.parseLines f.lines s =
    some { output := s.output ++ f.out, nLocals := f.nLocals, nArgs := f.nArgs, cArg := 0 } := by
  have ne : "proc ".toList ++ f.header ≠ [] := List.cons_ne_nil _ _
  have nes : ∀ line ∈ f.trees.flatMap Tree.lines, line ≠ [] := fun line mem => by
    obtain ⟨tree, -, mem⟩ := List.mem_flatMap.mp mem
    exact tree.lines_ne_nil line mem
  have body : Translator.parseLines (["proc ".toList ++ f.header] ++ f.trees.flatMap Tree.lines) s =
      some (Translator.mk (s.output ++ ([.directive "proc".toList f.header, .directive "label".toList f.name.text] ++
        (genProcHeader f.nLocals f.nArgs).map .op) ++ f.trees.flatMap (Tree.out f.nArgs)) f.nLocals f.nArgs 0) := by
    rw [Translator.parseLines_append (List.forall_mem_singleton.mpr ne),
      Translator.parseLines_single ne (f.proc_parsed s), Option.bind_some, parsed_trees _ _ rfl]
    rfl
  refine Translator.parseLines_concat (List.forall_mem_append.mpr ⟨List.forall_mem_singleton.mpr ne, nes⟩)
    (List.cons_ne_nil _ _) body ((f.endproc_parsed _).trans ?_)
  refine congrArg (fun output => some (Translator.mk output f.nLocals f.nArgs 0)) ?_
  unfold out
  simp only [List.append_assoc]

theorem lines_ne_nil : ∀ line ∈ f.lines, line ≠ [] := by
  have ne : "proc ".toList ++ f.header ≠ [] := List.cons_ne_nil _ _
  have last : "endproc ".toList ++ f.header ≠ [] := List.cons_ne_nil _ _
  refine List.forall_mem_append.mpr ⟨List.forall_mem_append.mpr ⟨List.forall_mem_singleton.mpr ne, fun line mem => ?_⟩,
    List.forall_mem_singleton.mpr last⟩
  obtain ⟨tree, -, mem⟩ := List.mem_flatMap.mp mem
  exact tree.lines_ne_nil line mem

end Procedure

namespace Program

/-- **What the translator puts out for a program.** -/
theorem parsed (prog : Program) (s : Translator) :
    (Translator.parseLines prog.lines s).map Translator.output = some (s.output ++ prog.out) := by
  induction prog generalizing s with
  | nil => exact congrArg some (List.append_nil _).symm
  | cons f prog ih =>
    show (Translator.parseLines (f.lines ++ Program.lines prog) s).map _ = some (_ ++ (f.out ++ Program.out prog))
    rw [Translator.parseLines_append f.lines_ne_nil, f.parsed, Option.bind_some, ih, List.append_assoc]

end Program

end RlCpu.Binutils
