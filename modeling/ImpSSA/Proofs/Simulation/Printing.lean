import ImpSSA.Proofs.Simulation.Correctness

/-!
# Printed values

A program that prints its values does so behind the code of the command, in whatever block is open
there. For each name it loads the value and hands it to the external function; neither step changes
what memory holds (`print_exec`), so the values come in the order of the names while memory has them in
the opposite one. Nothing else of a compiled program makes external calls: before the command ends none
is made, and if it does not end none ever is (`prints_exactly_values`).
-/

namespace ImpSSA
open IR

namespace Machine

/-- The function is declared by the program, which leaves it to the outside. -/
structure External (p : Program) (fn : Key) : Prop where
  undefined : p.definition? fn = none
  declared : p.declares fn = true

/-- The call for a value in an external function. -/
def printCall (σ : Store) (x : String) : Key × List Value := (printName, [.int (σ.value x)])

section
variable {L : Layout} {σ : Store} {s : State} {n v : Nat} {rest : List (InstrId × Item)}

/-- An external call with a register hands over its value and changes no register. -/
lemma call_exec {p : Program} {k : Int} {w : Value} (external : External p printName)
    (left : At p s.pc ((.void v, .instr
      (.call .void (.global printName) [(.i64, .register (.anon k))])) :: rest))
    (more : rest ≠ []) (leaves : Leaves s.env n (.register (.anon k)) w) :
    ∃ pc, At p pc rest ∧ Steps p s 1 [(printName, [w])] { s with pc } := by
  obtain ⟨_, _, id⟩ := left.fetch
  obtain ⟨pc, _, _, left', exec⟩ := left.instr more
  have args : [(Ty.i64, Value.register (.anon k))].mapM (fun a => operand p s.env a.2) =
      .ok [w] := by
    simp only [List.mapM_cons, List.mapM_nil, leaves.operand]
    rfl
  have called := exec _ (.external rfl args external.undefined external.declared)
  rw [id, Env.result] at called
  exact ⟨pc, left', .external called .refl⟩

/-- The value of a variable is loaded and printed. -/
lemma print_exec {x : String} {ptr : Value} (external : External L.program printName)
    (found : L.context.get? x = some ptr) (le : L.first ≤ n) (holds : Holds L σ s)
    (left : At L.program s.pc ((.result (.anon n), .instr (.load .i64 ptr)) ::
      (.void v, .instr (.call .void (.global printName) [(.i64, .register (.anon n))])) :: rest))
    (more : rest ≠ []) :
    ∃ s', Steps L.program s 2 [printCall σ x] s' ∧ At L.program s'.pc rest ∧ Holds L σ s' := by
  obtain ⟨a, i, cell, pointer, deref, value⟩ := holds.reads le [x] x List.mem_cons_self ptr found
  obtain ⟨s₁, computes, result⟩ := Computes.result left (List.cons_ne_nil _ _)
    fun next => .load pointer.operand deref
  rw [value] at result
  obtain ⟨pc, left', called⟩ := call_exec external computes.left more result
  exact ⟨_, computes.steps.trans called, left', (holds.frame computes.frame le).goto pc⟩

/-- The code for printing prints the values of the names, in their order. -/
lemma prints_exec {xs code n' v'} (printing : PrintsCode L.context n v xs code n' v')
    (external : External L.program printName) (le : L.first ≤ n) (holds : Holds L σ s)
    (left : At L.program s.pc (code ++ rest)) (more : rest ≠ []) :
    ∃ s', Steps L.program s (2 * xs.length) (xs.map (printCall σ)) s' ∧ At L.program s'.pc rest ∧
      Holds L σ s' := by
  induction printing generalizing s with
  | nil => exact ⟨s, .refl, left, holds⟩
  | @cons n n' v v' x xs ptr code found printing ih =>
    obtain ⟨s₁, first, left₁, holds₁⟩ := print_exec external found le holds left (by simp [more])
    obtain ⟨s₂, others, left₂, holds₂⟩ := ih (Nat.le_succ_of_le le) holds₁ left₁
    refine ⟨s₂, ?_, left₂, holds₂⟩
    have steps := first.trans others
    rwa [Nat.add_comm, ← Nat.mul_succ] at steps

end

end Machine

open Machine

/-- A compiled program that prints declares the external function, and defines another one. -/
lemma Compiled.external {c : Node} {entry : Key} {names : List String} {p : Program}
    (h : Compiled c entry true names p) (other : entry ≠ printName) : External p printName := by
  obtain ⟨_, _, _⟩ := h
  constructor
  · simp [programOf, Program.definition?, Program.definitions, other]
  · simp [programOf, Program.declares, Program.declarations]

/-- If the command ends, all steps of a program that prints but the return lead to its values, and
print them. -/
lemma Compiled.printing_steps {c : Node} {entry : Key} {names : List String} {p : Program} {popped σ}
    (h : Compiled c entry true names p) (other : entry ≠ printName) (distinct : names.Nodup)
    (runs : Node.Runs [c] ∅ popped σ) :
    ∃ s₀ s, init p entry [] = .ok s₀ ∧
      Steps p s₀ (2 * names.length + Node.totalCost popped + 2 * names.length)
        (names.map (printCall σ)) s ∧
      step p s = .terminated (names.reverse.map fun x => .int (σ.value x)) none := by
  have external := h.external other
  obtain ⟨L, code, n, v, n', v', s₀, s, rfl, rfl, le, printing, init, steps, left, holds⟩ :=
    h.reaches_last distinct runs
  rw [if_pos rfl] at printing
  obtain ⟨s', printed, left', holds'⟩ := prints_exec printing external le holds left (by simp)
  exact ⟨s₀, s', init, steps.trans printed, holds'.terminates left'⟩

/-- Sorted names ascend. -/
lemma Node.pairwise_sortNames (xs : List String) : (sortNames xs).Pairwise (· < ·) := by
  refine List.Pairwise.map _ ?_ (Table.ascending _)
  intro p q lt
  exact compareOfLessAndEq_eq_lt.1 lt

/-- The names with storage are in strictly ascending order. -/
lemma Node.pairwise_storage (c : Node) (declared : Option (List String)) :
    (c.storage declared).Pairwise (· < ·) := by
  cases declared <;> exact pairwise_sortNames _

/-- If a command ends, its program with printing finishes with the same memory as the one without it,
and the external calls are one for the value of each stored name, in ascending order of the names. If
the command does not end, no external call is made, whatever the fuel. -/
theorem prints_exactly_values {c : Node} (ws : c.WellSorted .command) {entry : Key}
    (other : entry ≠ .named "print") {declared : Option (List String)} (admits : c.Admits declared) :
    ∃ printing plain, c.compile entry true declared = .ok printing ∧
      c.compile entry false declared = .ok plain ∧ (c.storage declared).Pairwise (· < ·) ∧
      (∀ (fuel : Int) (σ : Store) (n : Nat), c.run fuel ∅ = .ok (.final σ n) →
        ∃ (memory : List Value) (steps enough : Nat),
          memory = (c.storage declared).reverse.map (fun x => .int (σ.value x)) ∧
          ∀ fuel' : Int, enough ≤ fuel' →
            Machine.run plain entry fuel' = .ok ⟨.finished memory none, steps, []⟩ ∧
            Machine.run printing entry fuel' = .ok ⟨.finished memory none, enough,
              (c.storage declared).map fun x => (.named "print", [.int (σ.value x)])⟩) ∧
      ((∀ fuel : Int, ∃ n, c.run fuel ∅ = .ok (.diverged n)) → ∀ fuel : Int,
        ∃ r, Machine.run printing entry fuel = .ok r ∧ r.calls = []) := by
  obtain ⟨p, compiled, shape⟩ := exists_compiled ws entry true admits
  obtain ⟨q, compiled', shape'⟩ := exists_compiled ws entry false admits
  have distinct := c.nodup_storage declared
  refine ⟨p, q, compiled, compiled', c.pairwise_storage declared, ?_, ?_⟩
  · intro fuel σ n final
    obtain ⟨popped, runs⟩ := Node.exists_runs_of_final final
    obtain ⟨s₀, s, init, steps, last⟩ := shape.printing_steps other distinct runs
    refine ⟨_, _, _, rfl, fun fuel' enough =>
      ⟨shape'.run_eq distinct runs ?_, steps.run_eq init last enough⟩⟩
    rw [Node.compiledSteps]
    omega
  · intro diverged fuel
    refine ⟨_, shape.run_diverges distinct ?_ fuel, rfl⟩
    intro popped σ runs
    obtain ⟨n, eq⟩ := diverged popped.length
    cases (runs.run_eq le_rfl).symm.trans eq

/-- The values of `countdown` are printed by name, the spare one as zero, while memory has the last
name first; `spin` prints nothing. -/
theorem countdown_prints_values :
    countdown.WellSorted .command ∧ countdown.Admits (some ["top", "n", "spare"]) ∧
    (∃ p, countdown.compile (.named "f") true (some ["top", "n", "spare"]) = .ok p ∧
      ∃ enough : Nat, ∀ fuel : Int, enough ≤ fuel → Machine.run p (.named "f") fuel =
        .ok ⟨.finished [.int (-2), .int 0, .int 0] none, enough, [(.named "print", [.int 0]),
          (.named "print", [.int 0]), (.named "print", [.int (-2)])]⟩) ∧
    ∃ p, spin.compile (.named "f") true none = .ok p ∧
      ∀ fuel : Int, ∃ r, Machine.run p (.named "f") fuel = .ok r ∧ r.calls = [] := by
  have admits : countdown.Admits (some ["top", "n", "spare"]) := by
    unfold Node.Admits
    decide +kernel
  have other : Key.named "f" ≠ .named "print" := by
    decide
  have names : countdown.storage (some ["top", "n", "spare"]) = ["n", "spare", "top"] := by
    decide +kernel
  have final : countdown.run 20 ∅ = .ok (.final (Table.ofList [("n", 0), ("top", -2)]) 20) := by
    rfl
  have ws : countdown.WellSorted .command := by
    repeat constructor
  obtain ⟨p, _, compiled, _, _, prints, _⟩ := prints_exactly_values ws other admits
  obtain ⟨memory, _, enough, rfl, runs⟩ := prints _ _ _ final
  rw [names] at runs
  have ws' : spin.WellSorted .command := by
    repeat constructor
  obtain ⟨q, _, compiled', _, _, _, silent⟩ :=
    prints_exactly_values ws' other (show spin.Admits none from trivial)
  refine ⟨ws, admits, ⟨p, compiled, enough, fun fuel le => (runs fuel le).2⟩, q, compiled', ?_⟩
  exact silent spin_diverges

end ImpSSA
