import ImpSSA.Proofs.Simulation.Layout

/-!
# Operands of emitted code

What a generator emits for an expression, and what the machine then does with it. The code is numbered
without gaps from the counter of registers on (`ArithCode.ids`, `BoolCode.ids`). Wherever it stands in a
block, it is executed without a fault and leaves the value of the expression in the operand that the
generator returned, whatever else is in the state: `Delivers` says so, and
`expression_code_delivers` says it of every expression.

A generator whose stream was taken emits nothing any more. Literals need no code and are still their own
operands (`literal_arith`, `literal_bool`); every other expression fails (`lowerArith_closed`,
`lowerBool_closed`).
-/

namespace ImpSSA
open IR Machine

/-- The pointers of the names are registers with numbers below `n`. -/
def Context.Below (ctx : Context) (n : Nat) (xs : List String) : Prop :=
  ∀ x ∈ xs, ∃ k : Int, k < n ∧ ctx.get? x = some (.register (.anon k))

namespace Machine

/-- The registers of the names hold the addresses of live cells with the values of the names. -/
def Bound (ctx : Context) (σ : Store) (s : State) (xs : List String) : Prop :=
  ∀ x ∈ xs, ∀ k, ctx.get? x = some (.register k) → ∃ (a : Nat) (cell : Cell),
    s.env.get? k = some (.addr a) ∧ s.memory[a]? = some cell ∧ cell.live = true ∧
      cell.value = .int (σ.value x)

/-- The code is executed in front of `rest` without a fault. It changes neither the stack nor memory, nor
any register but those from `n` to `n'`, and the operand `w` then has the value `v`. -/
def Delivers (p : Program) (s : State) (code rest : List (InstrId × Item)) (n n' : Nat)
    (w v : Value) : Prop :=
  ∃ s', Steps p s code.length [] s' ∧ At p s'.pc rest ∧ s'.stack = s.stack ∧ s'.memory = s.memory ∧
    (∀ k, k ∉ anons n n' → s'.env.get? k = s.env.get? k) ∧ operand p s'.env w = .ok v

/-- Code that computes and leaves a value in an operand delivers it. -/
lemma Computes.delivers {p s code rest n n' s' w v} (h : Computes p s code rest n n' s')
    (left : Leaves s'.env n' w v) : Delivers p s code rest n n' w v :=
  ⟨s', h.steps, h.left, h.frame.stack, h.frame.memory, h.frame.env, left.operand⟩

end Machine

/-- The names of an expression have pointers if its variables have. -/
lemma Context.Below.has {ctx : Context} {n : Nat} {e : Node} (below : ctx.Below n e.vars) :
    ctx.Has e.names := by
  intro x mem
  obtain ⟨k, _, found⟩ := below x (Node.mem_vars.2 mem)
  exact ⟨_, found⟩

/-- Bound names below the counter can be read. -/
lemma Machine.Bound.reads {ctx : Context} {σ : Store} {s : State} {n : Nat} {e : Node}
    (bound : Bound ctx σ s e.vars) (below : ctx.Below n e.vars) : Reads ctx σ n s e.names := by
  intro x mem ptr found
  have var : x ∈ e.vars := Node.mem_vars.2 mem
  obtain ⟨k, lt, pointer⟩ := below x var
  cases pointer.symm.trans found
  obtain ⟨a, cell, address, here, live, value⟩ := bound x var _ pointer
  exact ⟨_, a, cell, .register lt address, deref_addr here live, value⟩

section
variable {ctx : Context} {n n' : Nat} {code : List (InstrId × Item)} {w : Value}

/-! ## Numbers without gaps -/

/-- The identifiers of results numbered from `n` to `n'`. -/
def results (n n' : Nat) : List InstrId := (anons n n').map .result

/-- Numbers follow each other. -/
lemma results_append {m : Nat} (h : n ≤ m) (h' : m ≤ n') :
    results n m ++ results m n' = results n n' := by
  rw [results, results, ← List.map_append, anons_append h h', results]

/-- A single number. -/
lemma results_succ (n : Nat) : results n (n + 1) = [.result (.anon n)] := by
  rw [results, anons_succ, List.map_singleton]

/-- An item behind the code of two operands takes the next number. -/
lemma ids_operator {m : Nat} {cl cr : List (InstrId × Item)} {x : Item} (le : n ≤ m) (le' : m ≤ n')
    (left : cl.map (·.1) = results n m) (right : cr.map (·.1) = results m n') :
    (cl ++ (cr ++ [(InstrId.result (.anon n'), x)])).map (·.1) = results n (n' + 1) := by
  rw [List.map_append, List.map_append, left, right, List.map_singleton, ← results_succ,
    results_append le' n'.le_succ, results_append le (le'.trans n'.le_succ)]

/-- The code of an arithmetic expression is numbered without gaps. -/
lemma ArithCode.ids {e} (h : ArithCode ctx n e code w n') :
    n ≤ n' ∧ code.map (·.1) = results n n' := by
  induction h with
  | num => exact ⟨le_rfl, by rw [results, anons_self]; rfl⟩
  | var => exact ⟨Nat.le_succ _, by rw [results_succ]; rfl⟩
  | arith _ _ ihl ihr =>
    obtain ⟨le, left⟩ := ihl
    obtain ⟨le', right⟩ := ihr
    exact ⟨(le.trans le').trans (Nat.le_succ _), ids_operator le le' left right⟩

/-- The code of a boolean expression is numbered without gaps. -/
lemma BoolCode.ids {b} (h : BoolCode ctx n b code w n') :
    n ≤ n' ∧ code.map (·.1) = results n n' := by
  induction h with
  | bool => exact ⟨le_rfl, by rw [results, anons_self]; rfl⟩
  | cmp l r =>
    obtain ⟨le, left⟩ := l.ids
    obtain ⟨le', right⟩ := r.ids
    exact ⟨(le.trans le').trans (Nat.le_succ _), ids_operator le le' left right⟩
  | @not n n₁ _ _ _ _ ih =>
    obtain ⟨le, operand⟩ := ih
    refine ⟨le.trans (Nat.le_succ _), ?_⟩
    rw [List.map_append, operand, List.map_singleton, ← results_succ, results_append le n₁.le_succ]
  | and _ _ ihl ihr =>
    obtain ⟨le, left⟩ := ihl
    obtain ⟨le', right⟩ := ihr
    exact ⟨(le.trans le').trans (Nat.le_succ _), ids_operator le le' left right⟩

/-! ## After the stream was taken -/

/-- The action fails at the first item it emits, for which it has taken a number. -/
def TooLate {α : Type} (g : CodeGen) (x : Gen α) : Prop :=
  x.run g = .error .closed { g with nextLocal := g.nextLocal + 1 }

variable {g : CodeGen}

/-- After the stream was taken nothing can be emitted. -/
lemma TooLate.emit (finished : g.finished = true) (item : Item) : TooLate g (Gen.emit item) := by
  obtain ⟨n, v, elems, done⟩ := g
  cases finished
  rfl

/-- What follows an action that is that of a literal, and emits nothing, or that is too late itself. -/
lemma TooLate.bind {α β κ : Type} {x : Gen α} {f : α → Gen β} {Literal : κ → Prop} {w : κ → α}
    (gives : ∀ k, Literal k → x = pure (w k)) (first : (∃ k, Literal k) ∨ TooLate g x)
    (rest : ∀ a, TooLate g (f a)) : TooLate g (x >>= f) := by
  rcases first with ⟨k, literal⟩ | late
  · rw [gives k literal, pure_bind]
    exact rest _
  · rw [TooLate, EStateM.run_bind, late]

/-- A number needs no code: its operand is the word that it wraps to. -/
lemma literal_arith (ctx : Context) {e : Node} (k : Int) (literal : e = .num k) :
    e.lowerArith ctx = pure (.int (wrap64 k)) := by
  rw [literal, Node.lowerArith]

/-- A truth value needs no code: it is its own operand. -/
lemma literal_bool (ctx : Context) {b : Node} (v : Bool) (literal : b = .bool v) :
    b.lowerBool ctx = pure (.bool v) := by
  rw [literal, Node.lowerBool]

/-- A generator whose stream was taken refuses every arithmetic expression but literals. -/
lemma lowerArith_closed {e : Node} (ws : e.WellSorted .arith) (has : ctx.Has e.names)
    (finished : g.finished = true) : (∃ k, e = .num k) ∨ TooLate g (e.lowerArith ctx) := by
  induction e with
  | num k => exact .inl ⟨k, rfl⟩
  | var x =>
    obtain ⟨p, found⟩ := has x List.mem_cons_self
    rw [Node.lowerArith, Context.pointer_eq found, pure_bind]
    exact .inr (.emit finished _)
  | arith op l r ihl ihr =>
    cases ws with
    | arith wsl wsr =>
      obtain ⟨hasl, hasr⟩ := Context.has_append.1 has
      have left := ihl wsl hasl
      have right := ihr wsr hasr
      rw [Node.lowerArith]
      exact .inr (.bind (literal_arith ctx) left fun u =>
        .bind (literal_arith ctx) right fun w => .emit finished _)
  | _ => cases ws

/-- A generator whose stream was taken refuses every boolean expression but literals. -/
lemma lowerBool_closed {b : Node} (ws : b.WellSorted .bool) (has : ctx.Has b.names)
    (finished : g.finished = true) : (∃ v, b = .bool v) ∨ TooLate g (b.lowerBool ctx) := by
  induction b with
  | bool v => exact .inl ⟨v, rfl⟩
  | cmp op l r =>
    cases ws with
    | cmp wsl wsr =>
      obtain ⟨hasl, hasr⟩ := Context.has_append.1 has
      have left := lowerArith_closed wsl hasl finished
      have right := lowerArith_closed wsr hasr finished
      rw [Node.lowerBool]
      exact .inr (.bind (literal_arith ctx) left fun u =>
        .bind (literal_arith ctx) right fun w => .emit finished _)
  | not b ih =>
    cases ws with
    | not ws =>
      have operand := ih ws has
      rw [Node.lowerBool]
      exact .inr (.bind (literal_bool ctx) operand fun u => .emit finished _)
  | and l r ihl ihr =>
    cases ws with
    | and wsl wsr =>
      obtain ⟨hasl, hasr⟩ := Context.has_append.1 has
      have left := ihl wsl hasl
      have right := ihr wsr hasr
      rw [Node.lowerBool]
      exact .inr (.bind (literal_bool ctx) left fun u =>
        .bind (literal_bool ctx) right fun w => .emit finished _)
  | _ => cases ws

end

/-! ## What is delivered -/

/-- As long as its stream was not taken, a generator emits for an expression instructions with results
numbered from its counter on, and nothing else. Their execution, wherever they stand in a block and
whatever the state is apart from the cells of the variables, disturbs nothing and delivers the value of
the expression in the operand that is returned. Once the stream was taken, a literal is still its own
operand and changes nothing, and every other expression fails with the message for a late emission. -/
theorem expression_code_delivers (ctx : Context) (g : CodeGen) :
    (∀ e : Node, e.WellSorted .arith → ctx.Below g.nextLocal e.vars →
      (g.finished = false → ∃ code w n', g.nextLocal ≤ n' ∧
        (e.lowerArith ctx).run g =
          .ok w { g with nextLocal := n', elems := g.elems ++ instrs code } ∧
        code.map (·.1) = results g.nextLocal n' ∧
        ∀ p σ s rest, Bound ctx σ s e.vars → At p s.pc (code ++ rest) → rest ≠ [] →
          ∃ m, e.arithValue σ = .ok m ∧ Delivers p s code rest g.nextLocal n' w (.int m)) ∧
      (g.finished = true →
        (∀ k, e = .num k → (e.lowerArith ctx).run g = .ok (.int (wrap64 k)) g) ∧
        ((∀ k, e ≠ .num k) → TooLate g (e.lowerArith ctx)))) ∧
    (∀ b : Node, b.WellSorted .bool → ctx.Below g.nextLocal b.vars →
      (g.finished = false → ∃ code w n', g.nextLocal ≤ n' ∧
        (b.lowerBool ctx).run g =
          .ok w { g with nextLocal := n', elems := g.elems ++ instrs code } ∧
        code.map (·.1) = results g.nextLocal n' ∧
        ∀ p σ s rest, Bound ctx σ s b.vars → At p s.pc (code ++ rest) → rest ≠ [] →
          ∃ v, b.boolValue σ = .ok v ∧ Delivers p s code rest g.nextLocal n' w (.bool v)) ∧
      (g.finished = true →
        (∀ v, b = .bool v → (b.lowerBool ctx).run g = .ok (.bool v) g) ∧
        ((∀ v, b ≠ .bool v) → TooLate g (b.lowerBool ctx)))) ∧
    CompileError.closed.message = "emit after code generation finished" := by
  obtain ⟨n, void, elems, done⟩ := g
  refine ⟨fun e ws below => ⟨?_, fun finished => ⟨fun k literal => ?_, fun other => ?_⟩⟩,
    fun b ws below => ⟨?_, fun finished => ⟨fun v literal => ?_, fun other => ?_⟩⟩, rfl⟩
  · rintro rfl
    obtain ⟨code, w, n', emitted⟩ := ArithCode.exists_code ws below.has n
    refine ⟨code, w, n', emitted.ids.1, emitted.lower elems, emitted.ids.2, ?_⟩
    intro p σ s rest bound left more
    obtain ⟨m, s', value, computes, result⟩ := emitted.exec (bound.reads below) left more
    exact ⟨m, value, computes.delivers result⟩
  · rw [literal_arith ctx k literal]
    rfl
  · exact (lowerArith_closed ws below.has finished).resolve_left (not_exists.2 other)
  · rintro rfl
    obtain ⟨code, w, n', emitted⟩ := BoolCode.exists_code ws below.has n
    refine ⟨code, w, n', emitted.ids.1, emitted.lower elems, emitted.ids.2, ?_⟩
    intro p σ s rest bound left more
    obtain ⟨v, s', value, computes, result⟩ := emitted.exec (bound.reads below) left more
    exact ⟨v, value, computes.delivers result⟩
  · rw [literal_bool ctx v literal]
    rfl
  · exact (lowerBool_closed ws below.has finished).resolve_left (not_exists.2 other)

/-- The sum of a variable and a literal, as code behind the pointer in the first register. -/
def sumCode : List (InstrId × Item) :=
  [(.result (.anon 2), .instr (.load .i64 (.register (.anon 1)))),
    (.result (.anon 3), .instr (.binop .add .i64 (.register (.anon 2)) (.int 1)))]

/-- A function with nothing but that code. -/
def sumProgram : Program :=
  ⟨[.define ⟨.named "f", ⟨.void, []⟩, [], [⟨.anon 0, sumCode, (.void 1, .term .retVoid)⟩]⟩]⟩

/-- With the variable at the largest word the sum wraps to the smallest one. -/
theorem sum_code_delivers :
    let ctx : Context := Table.ofList [("X", .register (.anon 1))]
    let σ : Store := Table.ofList [("X", 9223372036854775807)]
    let s : State := ⟨⟨.named "f", .anon 0, .result (.anon 2)⟩,
      Table.ofList [(.anon 1, .addr 0), (.anon 7, .undef)], [], [⟨.int 9223372036854775807, 0, true⟩]⟩
    let e : Node := .arith .plus (.var "X") (.num 1)
    e.WellSorted .arith ∧ ctx.Below 2 e.vars ∧ Bound ctx σ s e.vars ∧
    (e.lowerArith ctx).run ⟨2, 5, #[], false⟩ =
      .ok (.register (.anon 3)) ⟨4, 5, (instrs sumCode).toArray, false⟩ ∧
    Delivers sumProgram s sumCode [(.void 1, .term .retVoid)] 2 4 (.register (.anon 3))
      (.int (-9223372036854775808)) := by
  intro ctx σ s e
  have ws : e.WellSorted .arith := .arith (.var _) (.num _)
  have vars : e.vars = ["X"] := by decide +kernel
  have below : ctx.Below 2 e.vars := by
    rw [vars]
    exact List.forall_mem_singleton.2 ⟨1, by decide, rfl⟩
  have bound : Bound ctx σ s e.vars := by
    rw [vars]
    refine List.forall_mem_singleton.2 fun k found => ?_
    cases found
    exact ⟨0, _, rfl, rfl, rfl, rfl⟩
  have left : At sumProgram s.pc (sumCode ++ [(.void 1, .term .retVoid)]) :=
    ⟨_, [], rfl, by decide, rfl, rfl⟩
  have emits : (e.lowerArith ctx).run ⟨2, 5, #[], false⟩ =
      .ok (.register (.anon 3)) ⟨4, 5, (instrs sumCode).toArray, false⟩ := rfl
  obtain ⟨code, w, n', _, emitted, _, delivers⟩ :=
    ((expression_code_delivers ctx ⟨2, 5, #[], false⟩).1 e ws below).1 rfl
  obtain ⟨rfl, same⟩ := EStateM.Result.ok.inj (emits.symm.trans emitted)
  obtain ⟨rfl, elems⟩ : 4 = n' ∧ instrs sumCode = instrs code := by simpa using same
  obtain rfl := instrs_inj.1 elems
  obtain ⟨m, value, delivered⟩ := delivers sumProgram σ s _ bound left (by simp)
  cases value
  exact ⟨ws, below, bound, emits, delivered⟩

/-- After the stream was taken a variable has no operand, although the pointer to its cell is known. -/
theorem taken_stream_delivers_nothing :
    ∃ ctx g, (do let ctx ← allocate ["X"]; let _ ← Gen.finish; pure ctx).run .start = .ok ctx g ∧
      (Node.var "X").WellSorted .arith ∧ ctx.Below g.nextLocal (Node.var "X").vars ∧
      ¬ ∃ w g', ((Node.var "X").lowerArith ctx).run g = .ok w g' := by
  have vars : (Node.var "X").vars = ["X"] := by decide +kernel
  refine ⟨_, _, rfl, .var _, ?_, ?_⟩
  · rw [vars]
    exact List.forall_mem_singleton.2 ⟨1, by decide, rfl⟩
  · rintro ⟨w, g', emitted⟩
    cases emitted

end ImpSSA
