import ImpSSA.Proofs.Table
import ImpSSA.Proofs.Word
import ImpSSA.Proofs.Node.Run

/-!
# Wrapping once

Sums, differences and products depend on the words of their operands alone, so wrapping an operand does
not show in a wrapped result (`wrap64_apply`). Hence an expression may be computed without bound, however
far its parts exceed the words, and wrapped at the end (`WellSorted.arithValue_eq`). What a command writes
is then always a word: `Reaches` follows its run step by step, whether it ends or not, and every store on
the way holds words if the first does (`Reaches.ofWords`).
-/

namespace ImpSSA

/-- All values of the store are 64-bit words. -/
def Store.OfWords (σ : Store) : Prop := ∀ x n, σ.get? x = some n → Fits 64 n

namespace Store.OfWords
variable {σ : Store}

/-- The value of a name is a word. -/
lemma value (words : σ.OfWords) (x : String) : Fits 64 (σ.value x) := by
  rw [Store.value]
  cases found : σ.get? x with
  | none => decide
  | some n => exact words x n found

/-- A name is set to a word. -/
lemma insert {n : Int} (words : σ.OfWords) (x : String) (fits : Fits 64 n) :
    OfWords (σ.insert x n) := by
  intro y m found
  rw [Table.get?_insert] at found
  split at found
  · cases found
    exact fits
  · exact words y m found

end Store.OfWords

namespace Node

/-- The value of an arithmetic expression in unbounded arithmetic, where nothing is wrapped, neither a
literal nor a result. Other nodes have no value and count as zero. -/
def exactValue (σ : Store) : Node → Int
  | .num n => n
  | .var x => σ.value x
  | .arith op l r => op.apply (l.exactValue σ) (r.exactValue σ)
  | _ => 0

/-- Operands may be wrapped or not. -/
lemma wrap64_apply (op : ArithOp) (m n : Int) :
    wrap64 (op.apply (wrap64 m) (wrap64 n)) = wrap64 (op.apply m n) := by
  refine wrap_eq_wrap_iff.2 ?_
  cases op with
  | plus => simp only [ArithOp.apply, wrap64, BitVec.ofInt_add, ofInt_wrap]
  | minus => simp only [ArithOp.apply, wrap64, ofInt_sub, ofInt_wrap]
  | times => simp only [ArithOp.apply, wrap64, BitVec.ofInt_mul, ofInt_wrap]

section
variable {σ : Store}

/-- An expression has the value of unbounded arithmetic, wrapped once. -/
lemma WellSorted.arithValue_eq {e} (ws : WellSorted .arith e) (words : σ.OfWords) :
    e.arithValue σ = .ok (wrap64 (e.exactValue σ)) := by
  induction e with
  | num n => rfl
  | var x =>
    have same : wrap64 (σ.value x) = σ.value x := wrap_of_fits (by decide) (words.value x)
    rw [exactValue, same]
    rfl
  | arith op l r ihl ihr =>
    cases ws with
    | arith wsl wsr =>
      -- both operands come wrapped, which the wrapped result does not show
      rw [Node.arithValue, ihl wsl, ihr wsr, exactValue, ← wrap64_apply]
      rfl
  | _ => cases ws

/-- Expressions with a value are well sorted. -/
lemma wellSorted_of_arithValue {e : Node} {n} (value : e.arithValue σ = .ok n) : WellSorted .arith e := by
  induction e generalizing n with
  | num v => exact .num v
  | var x => exact .var x
  | arith op l r ihl ihr =>
    obtain ⟨a, valuel, value⟩ := bind_eq_ok.1 value
    obtain ⟨b, valuer, _⟩ := bind_eq_ok.1 value
    exact .arith (ihl valuel) (ihr valuer)
  | _ => cases value

/-- In a store of words every value is a word. -/
lemma fits_of_arithValue {e : Node} {n} (value : e.arithValue σ = .ok n) (words : σ.OfWords) : Fits 64 n := by
  have wrapped := (wellSorted_of_arithValue value).arithValue_eq words
  rw [value] at wrapped
  cases wrapped
  exact fits_wrap

end

/-! ## What a run writes -/

/-- The pending commands come to others, and the store to another, in some number of steps. -/
inductive Reaches : List Node → Store → List Node → Store → Prop where
  | refl {k σ} :
    Reaches k σ k σ
  | step {c k σ k' σ' k'' σ''} :
    c.step σ k = .ok (k', σ') →
    Reaches k' σ' k'' σ'' →
    Reaches (c :: k) σ k'' σ''

/-- At some time in its run from the store, the command assigns the number to the name. -/
def Assigns (c : Node) (σ : Store) (x : String) (n : Int) : Prop :=
  ∃ e k τ, Reaches [c] σ (.assign x e :: k) τ ∧ e.arithValue τ = .ok n

/-- A run comes to where nothing is pending. -/
lemma Runs.reaches {k σ popped σ'} (runs : Runs k σ popped σ') : Reaches k σ [] σ' := by
  induction runs with
  | done => exact .refl
  | step st _ ih => exact .step st ih

/-- A step keeps a store one of words. -/
lemma step_ofWords {c : Node} {k σ k' σ'} (st : c.step σ k = .ok (k', σ')) (words : σ.OfWords) :
    σ'.OfWords := by
  obtain rfl | ⟨x, e, n, _, value, rfl⟩ := store_of_step st
  · exact words
  · exact words.insert x (fits_of_arithValue value words)

/-- Stores of words lead to stores of words. -/
lemma Reaches.ofWords {k σ k' σ'} (reaches : Reaches k σ k' σ') (words : σ.OfWords) : σ'.OfWords := by
  induction reaches with
  | refl => exact words
  | step st _ ih => exact ih (step_ofWords st words)

/-- In a store of words an expression has the value of unbounded arithmetic, wrapped once, however often
its parts exceed the words. So every number that a command writes when it is started there is a word,
whether it comes to an end or not, and where it does the store is one of words again. -/
theorem wraps_once {σ : Store} (words : ∀ x n, σ.get? x = some n → -2 ^ 63 ≤ n ∧ n < 2 ^ 63) :
    (∀ e, WellSorted .arith e → e.arithValue σ = .ok (wrap64 (e.exactValue σ))) ∧
    (∀ c x n, Assigns c σ x n → -2 ^ 63 ≤ n ∧ n < 2 ^ 63) ∧
    ∀ c fuel τ steps, run c fuel σ = .ok (.final τ steps) →
      ∀ x n, τ.get? x = some n → -2 ^ 63 ≤ n ∧ n < 2 ^ 63 := by
  refine ⟨fun e ws => ws.arithValue_eq words, ?_, ?_⟩
  · rintro c x n ⟨e, k, τ, reaches, value⟩
    exact fits_of_arithValue value (reaches.ofWords words)
  · intro c fuel τ steps final
    obtain ⟨popped, runs⟩ := exists_runs_of_final final
    exact runs.reaches.ofWords words

/-- The square of the largest word and the literal both exceed the words by far, and the loop goes on for
ever. What it writes in its first two rounds are words. -/
theorem endless_squares_wrap_once :
    let σ : Store := Table.ofList [("X", 9223372036854775807)]
    let e : Node := .arith .minus (.arith .times (.var "X") (.var "X")) (.num 36893488147419103235)
    let c : Node := .loop (.bool true) (.assign "X" e)
    (∀ x n, σ.get? x = some n → -2 ^ 63 ≤ n ∧ n < 2 ^ 63) ∧ e.WellSorted .arith ∧
    e.exactValue σ = 85070591730234615810503419636813398014 ∧ e.arithValue σ = .ok (-2) ∧
    (Assigns c σ "X" (-2) ∧ -2 ^ 63 ≤ (-2 : Int) ∧ (-2 : Int) < 2 ^ 63) ∧
    (Assigns c σ "X" 1 ∧ -2 ^ 63 ≤ (1 : Int) ∧ (1 : Int) < 2 ^ 63) ∧
    ∃ τ : Store, run (.assign "X" e) 1 σ = .ok (.final τ 1) ∧
      ∀ x n, τ.get? x = some n → -2 ^ 63 ≤ n ∧ n < 2 ^ 63 := by
  intro σ e c
  have words : ∀ x n, σ.get? x = some n → -2 ^ 63 ≤ n ∧ n < 2 ^ 63 := by
    intro x n found
    obtain ⟨rfl, rfl⟩ := Prod.mk.inj (List.mem_singleton.1 (Table.mem_of_get?_ofList found))
    decide
  have ws : e.WellSorted .arith := .arith (.arith (.var _) (.var _)) (.num _)
  have first : Assigns c σ "X" (-2) := ⟨e, [c], σ, .step rfl .refl, rfl⟩
  have second : Assigns c σ "X" 1 :=
    ⟨e, [c], σ.insert "X" (-2), .step rfl (.step rfl (.step rfl .refl)), rfl⟩
  have final : run (.assign "X" e) 1 σ = .ok (.final (σ.insert "X" (-2)) 1) := rfl
  obtain ⟨once, written, ended⟩ := wraps_once words
  exact ⟨words, ws, rfl, once e ws, ⟨first, written _ _ _ first⟩, ⟨second, written _ _ _ second⟩,
    _, final, ended _ _ _ _ final⟩

end Node

end ImpSSA
