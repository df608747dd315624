import ImpSSA.CodeGen.Compile
import ImpSSA.Node.WellSorted
import ImpSSA.Proofs.Node.Parts
import ImpSSA.Proofs.IR.Stream

/-!
# The code of a command

The generator is a machine with counters; here its output is described by rules. `ArithCode ctx n e
code w n'` says that `code`, with results numbered from `n` to `n'`, leaves the value of `e` in the
operand `w`, and `BoolCode` says the same of conditions. `CommandCode ctx n v c es n' v'` says that
`es` is the code of the command `c`, with registers and labels numbered from `n` to `n'` and other
items from `v` to `v'`. Storage and the printing of values have their code computed directly.

Well-sorted trees whose names are in the context have code (`exists_code`), and the generator emits
it (`lower`). `generate_eq` puts the stream of a whole function together.
-/

namespace ImpSSA
open IR

/-- Code for an arithmetic expression. -/
inductive ArithCode (ctx : Context) :
    Nat → Node → List (InstrId × Item) → Value → Nat → Prop where
  | num {n k} :
    ArithCode ctx n (.num k) [] (.int (wrap64 k)) n
  | var {n x p} :
    ctx.get? x = some p →
    ArithCode ctx n (.var x) [(.result (.anon n), .instr (.load .i64 p))] (.register (.anon n))
      (n + 1)
  | arith {n n₁ n₂ op l r cl cr u w} :
    ArithCode ctx n l cl u n₁ →
    ArithCode ctx n₁ r cr w n₂ →
    ArithCode ctx n (.arith op l r)
      (cl ++ (cr ++ [(.result (.anon n₂), .instr (.binop op.lower .i64 u w))]))
      (.register (.anon n₂)) (n₂ + 1)

/-- Code for a boolean expression. -/
inductive BoolCode (ctx : Context) :
    Nat → Node → List (InstrId × Item) → Value → Nat → Prop where
  | bool {n b} :
    BoolCode ctx n (.bool b) [] (.bool b) n
  | cmp {n n₁ n₂ op l r cl cr u w} :
    ArithCode ctx n l cl u n₁ →
    ArithCode ctx n₁ r cr w n₂ →
    BoolCode ctx n (.cmp op l r)
      (cl ++ (cr ++ [(.result (.anon n₂), .instr (.icmp op.lower .i64 u w))]))
      (.register (.anon n₂)) (n₂ + 1)
  | not {n n₁ b cb u} :
    BoolCode ctx n b cb u n₁ →
    BoolCode ctx n (.not b)
      (cb ++ [(.result (.anon n₁), .instr (.binop .xor .i1 u (.bool true)))])
      (.register (.anon n₁)) (n₁ + 1)
  | and {n n₁ n₂ l r cl cr u w} :
    BoolCode ctx n l cl u n₁ →
    BoolCode ctx n₁ r cr w n₂ →
    BoolCode ctx n (.and l r)
      (cl ++ (cr ++ [(.result (.anon n₂), .instr (.binop .and .i1 u w))]))
      (.register (.anon n₂)) (n₂ + 1)

/-- An unconditional branch as an element. -/
def jump (v : Nat) (l : Nat) : Elem := .term (.void v) (.term (.br (.anon l)))

/-- A conditional branch as an element. -/
def fork (v : Nat) (w : Value) (l l' : Nat) : Elem :=
  .term (.void v) (.term (.condBr w (.anon l) (.anon l')))

/-- A numbered label as an element. -/
def mark (l : Nat) : Elem := .label (.anon l)

/-- Code for a command. -/
inductive CommandCode (ctx : Context) :
    Nat → Nat → Node → List Elem → Nat → Nat → Prop where
  | skip {n v} :
    CommandCode ctx n v .skip [] n v
  | assign {n n' v x e code w p} :
    ArithCode ctx n e code w n' →
    ctx.get? x = some p →
    CommandCode ctx n v (.assign x e)
      (instrs code ++ [.instr (.void v) (.instr (.store .i64 w p))]) n' (v + 1)
  | seq {n n₁ n₂ v v₁ v₂ c d cs ds} :
    CommandCode ctx n v c cs n₁ v₁ →
    CommandCode ctx n₁ v₁ d ds n₂ v₂ →
    CommandCode ctx n v (.seq c d) (cs ++ ds) n₂ v₂
  | cond {n n₁ n₂ n₃ v v₁ v₂ b c d code w cs ds} :
    BoolCode ctx (n + 3) b code w n₁ →
    CommandCode ctx n₁ (v + 1) c cs n₂ v₁ →
    CommandCode ctx n₂ (v₁ + 1) d ds n₃ v₂ →
    CommandCode ctx n v (.cond b c d)
      (instrs code ++ fork v w n (n + 1) :: mark n :: (cs ++ jump v₁ (n + 2) :: mark (n + 1) ::
        (ds ++ [jump v₂ (n + 2), mark (n + 2)])))
      n₃ (v₂ + 1)
  | loop {n n₁ n₂ v v₁ b c code w cs} :
    BoolCode ctx (n + 3) b code w n₁ →
    CommandCode ctx n₁ (v + 2) c cs n₂ v₁ →
    CommandCode ctx n v (.loop b c)
      (jump v n :: mark n :: (instrs code ++ fork (v + 1) w (n + 1) (n + 2) :: mark (n + 1) ::
        (cs ++ [jump v₁ n, mark (n + 2)])))
      n₂ (v₁ + 1)

/-- Code that allocates a zeroed cell for each name, the last name first. -/
def storageCode (n v : Nat) : List String → List (InstrId × Item)
  | [] => []
  | _ :: xs => storageCode n v xs ++
    [(.result (.anon (n + xs.length : Nat)), .instr (.alloca .i64)),
      (.void (v + xs.length : Nat),
        .instr (.store .i64 (.int 0) (.register (.anon (n + xs.length : Nat)))))]

/-- The context of allocated names. -/
def storageContext (n : Nat) : List String → Context
  | [] => ∅
  | x :: xs => (storageContext n xs).insert x (.register (.anon (n + xs.length : Nat)))

/-- Code that hands the values of names to the external function. -/
inductive PrintsCode (ctx : Context) :
    Nat → Nat → List String → List (InstrId × Item) → Nat → Nat → Prop where
  | nil {n v} :
    PrintsCode ctx n v [] [] n v
  | cons {n n' v v' x xs p code} :
    ctx.get? x = some p →
    PrintsCode ctx (n + 1) (v + 1) xs code n' v' →
    PrintsCode ctx n v (x :: xs)
      ((.result (.anon n), .instr (.load .i64 p)) ::
        (.void v, .instr (.call .void (.global printName) [(.i64, .register (.anon n))])) :: code)
      n' v'

/-! ## Operators -/

/-- The operator of an instruction for arithmetic is a known one. -/
lemma ArithOp.lower_mem (op : ArithOp) : op.lower ∈ BinaryOp.all := by
  cases op <;> decide

/-- The condition of an instruction for a comparison is a known one. -/
lemma CmpOp.lower_mem (op : CmpOp) : op.lower ∈ Condition.all := by
  cases op <;> decide

/-! ## Code exists -/

/-- Every name has a pointer. -/
def Context.Has (ctx : Context) (names : List String) : Prop := ∀ x ∈ names, ∃ p, ctx.get? x = some p

/-- Names have pointers if both parts of their list have. -/
lemma Context.has_append {ctx : Context} {xs ys : List String} :
    ctx.Has (xs ++ ys) ↔ ctx.Has xs ∧ ctx.Has ys :=
  List.forall_mem_append

/-- Every well-sorted arithmetic expression over known names has code. -/
lemma ArithCode.exists_code {ctx : Context} {e : Node} (ws : e.WellSorted .arith)
    (has : ctx.Has e.names) (n : Nat) : ∃ code w n', ArithCode ctx n e code w n' := by
  induction e generalizing n with
  | num k => exact ⟨_, _, _, .num⟩
  | var x =>
    obtain ⟨p, found⟩ := has x List.mem_cons_self
    exact ⟨_, _, _, .var found⟩
  | arith op l r ihl ihr =>
    cases ws with
    | arith wsl wsr =>
      obtain ⟨hasl, hasr⟩ := Context.has_append.1 has
      obtain ⟨cl, u, n₁, codel⟩ := ihl wsl hasl n
      obtain ⟨cr, w, n₂, coder⟩ := ihr wsr hasr n₁
      exact ⟨_, _, _, .arith codel coder⟩
  | _ => cases ws

/-- Every well-sorted boolean expression over known names has code. -/
lemma BoolCode.exists_code {ctx : Context} {b : Node} (ws : b.WellSorted .bool)
    (has : ctx.Has b.names) (n : Nat) : ∃ code w n', BoolCode ctx n b code w n' := by
  induction b generalizing n with
  | bool b => exact ⟨_, _, _, .bool⟩
  | cmp op l r =>
    cases ws with
    | cmp wsl wsr =>
      obtain ⟨hasl, hasr⟩ := Context.has_append.1 has
      obtain ⟨cl, u, n₁, codel⟩ := ArithCode.exists_code wsl hasl n
      obtain ⟨cr, w, n₂, coder⟩ := ArithCode.exists_code wsr hasr n₁
      exact ⟨_, _, _, .cmp codel coder⟩
  | not b ih =>
    cases ws with
    | not ws =>
      obtain ⟨cb, u, n₁, code⟩ := ih ws has n
      exact ⟨_, _, _, .not code⟩
  | and l r ihl ihr =>
    cases ws with
    | and wsl wsr =>
      obtain ⟨hasl, hasr⟩ := Context.has_append.1 has
      obtain ⟨cl, u, n₁, codel⟩ := ihl wsl hasl n
      obtain ⟨cr, w, n₂, coder⟩ := ihr wsr hasr n₁
      exact ⟨_, _, _, .and codel coder⟩
  | _ => cases ws

/-- Every well-sorted command over known names has code. -/
lemma CommandCode.exists_code {ctx : Context} {c : Node} (ws : c.WellSorted .command)
    (has : ctx.Has c.names) (n v : Nat) : ∃ es n' v', CommandCode ctx n v c es n' v' := by
  induction c generalizing n v with
  | skip => exact ⟨_, _, _, .skip⟩
  | assign x e =>
    cases ws with
    | assign ws =>
      obtain ⟨⟨p, found⟩, hase⟩ := List.forall_mem_cons.1 has
      obtain ⟨code, w, n', code_e⟩ := ArithCode.exists_code ws hase n
      exact ⟨_, _, _, .assign code_e found⟩
  | seq c d ihc ihd =>
    cases ws with
    | seq wsc wsd =>
      obtain ⟨hasc, hasd⟩ := Context.has_append.1 has
      obtain ⟨cs, n₁, v₁, code_c⟩ := ihc wsc hasc n v
      obtain ⟨ds, n₂, v₂, code_d⟩ := ihd wsd hasd n₁ v₁
      exact ⟨_, _, _, .seq code_c code_d⟩
  | cond b c d _ ihc ihd =>
    cases ws with
    | cond wsb wsc wsd =>
      obtain ⟨hasbc, hasd⟩ := Context.has_append.1 has
      obtain ⟨hasb, hasc⟩ := Context.has_append.1 hasbc
      obtain ⟨code, w, n₁, code_b⟩ := BoolCode.exists_code wsb hasb (n + 3)
      obtain ⟨cs, n₂, v₁, code_c⟩ := ihc wsc hasc n₁ (v + 1)
      obtain ⟨ds, n₃, v₂, code_d⟩ := ihd wsd hasd n₂ (v₁ + 1)
      exact ⟨_, _, _, .cond code_b code_c code_d⟩
  | loop b c _ ihc =>
    cases ws with
    | loop wsb wsc =>
      obtain ⟨hasb, hasc⟩ := Context.has_append.1 has
      obtain ⟨code, w, n₁, code_b⟩ := BoolCode.exists_code wsb hasb (n + 3)
      obtain ⟨cs, n₂, v₁, code_c⟩ := ihc wsc hasc n₁ (v + 2)
      exact ⟨_, _, _, .loop code_b code_c⟩
  | _ => cases ws

/-- Known names can be printed. -/
lemma PrintsCode.exists_code {ctx : Context} {xs : List String} (has : ctx.Has xs) (n v : Nat) :
    ∃ code n' v', PrintsCode ctx n v xs code n' v' := by
  induction xs generalizing n v with
  | nil => exact ⟨_, _, _, .nil⟩
  | cons x xs ih =>
    obtain ⟨⟨p, found⟩, has⟩ := List.forall_mem_cons.1 has
    obtain ⟨code, n', v', code_xs⟩ := ih has (n + 1) (v + 1)
    exact ⟨_, _, _, .cons found code_xs⟩

/-! ## The generator emits it -/

/-- The action emits `es` behind what was emitted before, and moves the counters from `n` and `v` to
`n'` and `v'`. -/
def Emits {α : Type} (x : Gen α) (n v : Nat) (es : List Elem) (a : α) (n' v' : Nat) : Prop :=
  ∀ out : Array Elem, x.run ⟨n, v, out, false⟩ = .ok a ⟨n', v', out ++ es, false⟩

section
variable {α β : Type} {n n₁ n₂ v v₁ v₂ : Nat} {es es' : List Elem} {a : α} {b : β}

/-- An action that only gives a value emits nothing. -/
lemma Emits.pure : Emits (Pure.pure a) n v [] a n v := by
  intro out
  rw [Array.appendList_nil]
  rfl

/-- What follows an action runs behind what it emitted. -/
lemma Emits.run_bind {x : Gen α} (hx : Emits x n v es a n₁ v₁) (f : α → Gen β) (out : Array Elem) :
    (x >>= f).run ⟨n, v, out, false⟩ = (f a).run ⟨n₁, v₁, out ++ es, false⟩ := by
  rw [EStateM.run_bind, hx out]

/-- Actions one after the other emit one after the other. -/
lemma Emits.bind {x : Gen α} {f : α → Gen β} (hx : Emits x n v es a n₁ v₁)
    (hf : Emits (f a) n₁ v₁ es' b n₂ v₂) : Emits (x >>= f) n v (es ++ es') b n₂ v₂ := by
  intro out
  have same : out ++ es ++ es' = out ++ (es ++ es') := Array.ext' (by simp)
  rw [hx.run_bind, hf, same]

/-- What is emitted may be written in another way. -/
lemma Emits.cast {x : Gen α} (h : Emits x n v es a n₁ v₁) (eq : es = es') :
    Emits x n v es' a n₁ v₁ := eq ▸ h

/-- A new label takes a number and emits nothing. -/
lemma Emits.freshLabel : Emits Gen.freshLabel n v [] (.anon n) (n + 1) v := by
  intro out
  rw [Array.appendList_nil]
  rfl

/-- An item with a result takes the next register. -/
lemma Emits.emit {item : Item} :
    Emits (Gen.emit item) n v [.instr (.result (.anon n)) item] (.register (.anon n)) (n + 1) v := by
  intro out
  rw [Array.appendList_cons, Array.appendList_nil]
  rfl

/-- An item without a result takes the next number of its own kind. -/
lemma Emits.emitVoid {item : Item} :
    Emits (Gen.emitVoid item) n v [.instr (.void v) item] () n (v + 1) := by
  intro out
  rw [Array.appendList_cons, Array.appendList_nil]
  rfl

/-- A terminator takes a number as an item without a result does. -/
lemma Emits.terminate {item : Item} :
    Emits (Gen.terminate item) n v [.term (.void v) item] () n (v + 1) := by
  intro out
  rw [Array.appendList_cons, Array.appendList_nil]
  rfl

/-- A label takes no number where it is placed. -/
lemma Emits.label {k : Key} : Emits (Gen.label k) n v [.label k] () n v := by
  intro out
  rw [Array.appendList_cons, Array.appendList_nil]
  rfl

end

/-- The pointer of a known name is found without emitting anything. -/
lemma Context.pointer_eq {ctx : Context} {x : String} {p : Value} (h : ctx.get? x = some p) :
    ctx.pointer x = pure p := by
  rw [pointer, h]

section
variable {ctx : Context} {n n' v v' : Nat}

/-- The code of an arithmetic expression is emitted, and its operand is the value. -/
lemma ArithCode.lower {e code w} (h : ArithCode ctx n e code w n') :
    Emits (e.lowerArith ctx) n v (instrs code) w n' v := by
  induction h with
  | num => exact .pure
  | var found =>
    rw [Node.lowerArith, Context.pointer_eq found, pure_bind]
    exact .emit
  | arith _ _ ihl ihr =>
    rw [Node.lowerArith]
    exact (ihl.bind (ihr.bind .emit)).cast (by simp)

/-- The generator emits the code of a boolean expression, and returns its operand. -/
lemma BoolCode.lower {b code w} (h : BoolCode ctx n b code w n') :
    Emits (b.lowerBool ctx) n v (instrs code) w n' v := by
  induction h with
  | bool => exact .pure
  | cmp l r =>
    rw [Node.lowerBool]
    exact (l.lower.bind (r.lower.bind .emit)).cast (by simp)
  | not _ ih =>
    rw [Node.lowerBool]
    exact (ih.bind .emit).cast (by simp)
  | and _ _ ihl ihr =>
    rw [Node.lowerBool]
    exact (ihl.bind (ihr.bind .emit)).cast (by simp)

/-- The code of a command is emitted. -/
lemma CommandCode.lower {c es} (h : CommandCode ctx n v c es n' v') :
    Emits (c.lowerCommand ctx) n v es () n' v' := by
  induction h with
  | skip => exact .pure
  | assign code found =>
    rw [Node.lowerCommand]
    simp only [Context.pointer_eq found, pure_bind]
    exact code.lower.bind .emitVoid
  | seq _ _ ihc ihd => exact ihc.bind ihd
  | cond code _ _ ihc ihd =>
    rw [Node.lowerCommand]
    refine .cast (.bind .freshLabel <| .bind .freshLabel <| .bind .freshLabel <|
      .bind code.lower <| .bind .terminate <| .bind .label <|
      .bind ihc <| .bind .terminate <| .bind .label <|
      .bind ihd <| .bind .terminate .label) ?_
    simp only [List.nil_append, List.cons_append]
    rfl
  | loop code _ ih =>
    rw [Node.lowerCommand]
    refine .cast (.bind .freshLabel <| .bind .freshLabel <| .bind .freshLabel <|
      .bind .terminate <| .bind .label <|
      .bind code.lower <| .bind .terminate <| .bind .label <|
      .bind ih <| .bind .terminate .label) ?_
    simp only [List.nil_append, List.cons_append]
    rfl

/-- The code of storage is emitted, and the context is the value. -/
lemma lower_storage (xs : List String) :
    Emits (allocate xs) n v (instrs (storageCode n v xs)) (storageContext n xs) (n + xs.length)
      (v + xs.length) := by
  induction xs with
  | nil => exact .pure
  | cons x xs ih =>
    rw [allocate]
    refine .cast (.bind ih <| .bind .emit <| .bind .emitVoid .pure) ?_
    simp [storageCode]

/-- The generator emits the code that prints the names. -/
lemma PrintsCode.lower {xs code} (h : PrintsCode ctx n v xs code n' v') :
    Emits (lowerPrints ctx xs) n v (instrs code) () n' v' := by
  induction h with
  | nil => exact .pure
  | cons found _ ih =>
    rw [lowerPrints]
    simp only [found]
    exact Emits.emit.bind <| Emits.emitVoid.bind ih

end

/-- The elements of a whole function behind its first label. -/
def functionCode (names : List String) (es : List Elem) (prints : List (InstrId × Item)) (v : Nat) :
    List Elem :=
  instrs (storageCode 1 1 names) ++ (es ++ (instrs prints ++ [.term (.void v) (.term .retVoid)]))

/-- Taking the stream gives all elements, and closes the generator. -/
lemma Gen.run_finish (n v : Nat) (out : Array Elem) :
    Gen.finish.run ⟨n, v, out, false⟩ = .ok out.toList ⟨n, v, #[], true⟩ := rfl

/-- The stream of a command: storage, the command, the printing of values and the return. -/
lemma generate_eq {c : Node} {prints : Bool} {names : List String} {es code n v n' v'}
    (body : CommandCode (storageContext 1 names) (1 + names.length) (1 + names.length) c es n v)
    (printing : PrintsCode (storageContext 1 names) n v (if prints then names else []) code n' v') :
    ∃ g, (c.generate prints names).run .start = .ok (functionCode names es code v') g := by
  rw [Node.generate, CodeGen.start, (lower_storage names).run_bind, body.lower.run_bind]
  cases prints with
  | false =>
    cases printing with
    | nil =>
      -- the return stands right behind the command
      simp only [Bool.false_eq_true, ↓reduceIte]
      rw [Emits.terminate.run_bind, Gen.run_finish]
      simp [functionCode]
  | true =>
    have print : Emits (lowerPrints _ names) n v (instrs code) () n' v' := printing.lower
    simp only [↓reduceIte]
    rw [print.run_bind, Emits.terminate.run_bind, Gen.run_finish]
    simp [functionCode]

end ImpSSA
