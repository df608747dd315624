import Mathlib.Algebra.Order.Ring.Nat
import Mathlib.Tactic.Ring
import ImpSSA.Search.Generate
import ImpSSA.Node.WellSorted
import ImpSSA.Proofs.Node.Parts

/-!
# What random trees are like

`Draws x P` says that the random computation `x` gives a value with the property `P` whatever the source
answers; in particular it never runs out of things to choose from. Random trees are well sorted and
within their vocabulary, and their size is bounded (`draws_arith`, `draws_bool`, `draws_command`).
`random_trees_usable` says this of every category, source and size.

The size is halved on the way down, but not everywhere: a negation takes one off it, and the smallest
assignment asks for a value of size two. So the bound of expressions is linear, while that of commands
has a logarithm, one test for each level of halving.
-/

namespace ImpSSA.Search

variable {σ α β : Type}

/-- Whatever the source answers, the computation gives a value with the property. -/
def Draws (x : Random σ α) (P : α → Prop) : Prop := ∀ s, ∃ a s', x.run s = .ok a s' ∧ P a

/-- A value that is given has its own properties. -/
lemma Draws.pure {a : α} {P : α → Prop} (holds : P a) : Draws (Pure.pure a : Random σ α) P :=
  fun s => ⟨a, s, rfl, holds⟩

/-- One computation after the other. -/
lemma Draws.bind {x : Random σ α} {f : α → Random σ β} {P : α → Prop} {Q : β → Prop}
    (first : Draws x P) (rest : ∀ a, P a → Draws (f a) Q) : Draws (x >>= f) Q := by
  intro s
  obtain ⟨a, t, eq, holds⟩ := first s
  obtain ⟨b, u, eq', holds'⟩ := rest a holds t
  exact ⟨b, u, by rw [EStateM.run_bind, eq]; exact eq', holds'⟩

/-- A property may be weakened. -/
lemma Draws.imp {x : Random σ α} {P Q : α → Prop} (draws : Draws x P) (le : ∀ a, P a → Q a) :
    Draws x Q := by
  intro s
  obtain ⟨a, t, eq, holds⟩ := draws s
  exact ⟨a, t, eq, le a holds⟩

/-! ## Trees of a vocabulary -/

/-- The names and the literals of the tree belong to the vocabulary. -/
def Vocabulary.Covers (v : Vocabulary) : Node → Prop
  | .num n => n.natAbs ≤ v.maxLiteral
  | .var x => x ∈ v.names
  | .arith _ l r | .cmp _ l r | .and l r | .seq l r | .loop l r => v.Covers l ∧ v.Covers r
  | .not b => v.Covers b
  | .assign x e => x ∈ v.names ∧ v.Covers e
  | .cond b c d => v.Covers b ∧ v.Covers c ∧ v.Covers d
  | .bool _ | .skip | .foreign _ => True

/-- Trees of a category in a vocabulary, up to a size. -/
structure Drawn (v : Vocabulary) (k : Category) (bound : Nat) (n : Node) : Prop where
  sorted : n.WellSorted k
  covered : v.Covers n
  size_le : n.size ≤ bound

/-- A bound on the size may be raised. -/
lemma Drawn.mono {v : Vocabulary} {k : Category} {bound bound' : Nat} {n : Node}
    (drawn : Drawn v k bound n) (le : bound ≤ bound') : Drawn v k bound' n :=
  ⟨drawn.sorted, drawn.covered, drawn.size_le.trans le⟩

/-- The largest size of an expression. -/
def exprBound (size : Nat) : Nat := 2 * max size 1 - 1

/-- The largest size of a command. -/
def commandBound (size : Nat) : Nat := max size 1 * ((max size 1).log2 + 4)

/-- Two expressions of half the size fit into the bound. -/
lemma exprBound_half {size : Nat} (large : ¬ size ≤ 1) :
    1 + exprBound (size / 2) + exprBound (size / 2) ≤ exprBound size := by
  rw [exprBound, exprBound]
  omega

/-- There is room for an assignment in the bound of commands. -/
lemma le_commandBound (size : Nat) : 4 * max size 1 ≤ commandBound size := by
  rw [commandBound, Nat.mul_comm]
  exact Nat.mul_le_mul_left _ (Nat.le_add_left _ _)

/-- Two commands of half the size fit into the bound, with room for a test. -/
lemma commandBound_half {size : Nat} (large : ¬ size ≤ 1) :
    1 + exprBound (size / 2) + commandBound (size / 2) + commandBound (size / 2) ≤ commandBound size := by
  have test : 1 + exprBound (size / 2) = 2 * (size / 2) := by
    rw [exprBound]
    omega
  have half : max (size / 2) 1 = size / 2 := by omega
  have whole : max size 1 = size := by omega
  have log : size.log2 = (size / 2).log2 + 1 := by
    rw [Nat.log2_def, if_pos (by omega)]
  rw [test, commandBound, commandBound, half, whole, log]
  calc 2 * (size / 2) + size / 2 * ((size / 2).log2 + 4) + size / 2 * ((size / 2).log2 + 4)
    _ = 2 * (size / 2) * ((size / 2).log2 + 1 + 4) := by ring
    _ ≤ size * ((size / 2).log2 + 1 + 4) := Nat.mul_le_mul_right _ (Nat.mul_div_le size 2)

/-- A node with two children that are drawn. -/
lemma Draws.node {v : Vocabulary} {x y : Random σ Node} {make : Node → Node → Node} {k k₁ k₂ : Category}
    {bound b₁ b₂ : Nat} (first : Draws x (Drawn v k₁ b₁)) (second : Draws y (Drawn v k₂ b₂))
    (sorted : ∀ {l r : Node}, l.WellSorted k₁ → r.WellSorted k₂ → (make l r).WellSorted k)
    (covered : ∀ {l r}, v.Covers l → v.Covers r → v.Covers (make l r))
    (size : ∀ l r, (make l r).size = 1 + l.size + r.size) (fits : 1 + b₁ + b₂ ≤ bound) :
    Draws (do let l ← x; let r ← y; return make l r) (Drawn v k bound) := by
  refine first.bind fun l hl => second.bind fun r hr => .pure ?_
  refine ⟨sorted hl.sorted hr.sorted, covered hl.covered hr.covered, ?_⟩
  rw [size]
  have := hl.size_le
  have := hr.size_le
  omega

/-! ## Random trees -/

variable [RandomSource σ]

/-- A source answers every question about a chance. -/
lemma draws_chance (percent : Nat) : Draws (chance percent : Random σ Bool) fun _ => True :=
  fun _ => ⟨_, _, rfl, trivial⟩

/-- A source answers every question for a number. -/
lemma draws_upTo (n : Nat) : Draws (upTo n : Random σ (Fin (n + 1))) fun _ => True :=
  fun _ => ⟨_, _, rfl, trivial⟩

/-- A range that is not empty has a number to draw. -/
lemma draws_between {first last : Int} (le : first ≤ last) :
    Draws (between first last : Random σ Int) fun n => first ≤ n ∧ n ≤ last := by
  rw [between, if_neg (by omega)]
  exact (draws_upTo _).bind fun n _ => .pure (by omega)

/-- A list that is not empty has a member to choose. -/
lemma draws_choose {xs : List α} (ne : xs ≠ []) : Draws (choose xs : Random σ α) (· ∈ xs) := by
  cases xs with
  | nil => exact absurd rfl ne
  | cons x xs => exact (draws_upTo xs.length).bind fun i _ => .pure (List.get_mem (x :: xs) i)

section
variable {v : Vocabulary} (names : v.names ≠ [])
include names

/-- An assignment of a value that is drawn. -/
lemma draws_assign {x : Random σ Node} {bound b : Nat} (value : Draws x (Drawn v .arith b))
    (fits : 1 + b ≤ bound) :
    Draws (do let y ← choose v.names; let e ← x; return .assign y e) (Drawn v .command bound) := by
  refine (draws_choose names).bind fun y mem => value.bind fun e he => .pure ?_
  refine ⟨.assign he.sorted, ⟨mem, he.covered⟩, ?_⟩
  rw [Node.size]
  have := he.size_le
  omega

/-- A leaf is a literal or a name of the vocabulary. -/
lemma draws_leaf : Draws (leaf v : Random σ Node) (Drawn v .arith 1) := by
  refine (draws_chance 50).bind fun b _ => ?_
  split
  · refine (draws_between (by omega)).bind fun n range => .pure ⟨.num n, ?_, Nat.le_refl 1⟩
    rw [Vocabulary.Covers]
    omega
  · exact (draws_choose names).bind fun x mem => .pure ⟨.var x, mem, Nat.le_refl 1⟩

/-- Arithmetic expressions, by induction on the size. -/
lemma draws_arith (size : Nat) :
    Draws (arith v size : Random σ Node) (Drawn v .arith (exprBound size)) := by
  induction size using Nat.strongRecOn with
  | _ size ih =>
    have leaf : Draws (leaf v : Random σ Node) (Drawn v .arith (exprBound size)) :=
      (draws_leaf names).imp fun n drawn => drawn.mono (by rw [exprBound]; omega)
    rw [arith]
    split
    · exact leaf
    · rename_i large
      refine (draws_chance 25).bind fun b _ => ?_
      split
      · exact leaf
      · have half := ih (size / 2) (by omega)
        refine (draws_choose (by simp)).bind fun op _ => ?_
        exact half.node half .arith .intro (fun _ _ => rfl) (exprBound_half large)

/-- Boolean expressions, by induction on the size. -/
lemma draws_bool (size : Nat) :
    Draws (bool v size : Random σ Node) (Drawn v .bool (exprBound size)) := by
  induction size using Nat.strongRecOn with
  | _ size ih =>
    rw [bool]
    split
    · refine (draws_choose (by simp)).bind fun b _ => .pure ⟨.bool b, trivial, ?_⟩
      rw [Node.size, exprBound]
      omega
    · rename_i large
      have operand : Draws (arith v (size / 2) : Random σ Node) _ := draws_arith names (size / 2)
      have half := ih (size / 2) (by omega)
      have fits := exprBound_half large
      refine (draws_upTo 3).bind fun i _ => ?_
      split
      · exact operand.node operand .cmp .intro (fun _ _ => rfl) fits
      · exact operand.node operand .cmp .intro (fun _ _ => rfl) fits
      · refine (ih (size - 1) (by omega)).bind fun b hb => .pure ⟨.not hb.sorted, hb.covered, ?_⟩
        have size_le := hb.size_le
        rw [Node.size]
        rw [exprBound] at size_le ⊢
        omega
      · exact half.node half .and .intro (fun _ _ => rfl) fits

/-- Commands, by induction on the size. -/
lemma draws_command (size : Nat) :
    Draws (command v size : Random σ Node) (Drawn v .command (commandBound size)) := by
  induction size using Nat.strongRecOn with
  | _ size ih =>
    have room := le_commandBound size
    rw [command]
    split
    · refine (draws_chance 20).bind fun b _ => ?_
      split
      · refine .pure ⟨.skip, trivial, ?_⟩
        rw [Node.size]
        omega
      · have small : exprBound 2 = 3 := rfl
        exact draws_assign names (draws_arith names 2) (by omega)
    · rename_i large
      have test : Draws (bool v (size / 2) : Random σ Node) _ := draws_bool names (size / 2)
      have half := ih (size / 2) (by omega)
      have fits := commandBound_half large
      refine (draws_upTo 3).bind fun i _ => ?_
      split
      · exact draws_assign names (draws_arith names size) (by rw [exprBound]; omega)
      · exact half.node half .seq .intro (fun _ _ => rfl) (by omega)
      · refine test.bind fun b hb => half.bind fun c hc => half.bind fun d hd => .pure ?_
        refine ⟨.cond hb.sorted hc.sorted hd.sorted, ⟨hb.covered, hc.covered, hd.covered⟩, ?_⟩
        have := hb.size_le
        have := hc.size_le
        have := hd.size_le
        rw [Node.size]
        omega
      · exact test.node half .loop .intro (fun _ _ => rfl) (by omega)

end

/-- The literals of a tree in a vocabulary are within its bound. -/
lemma Vocabulary.Covers.literals_le {v : Vocabulary} {n : Node} (covers : v.Covers n) :
    ∀ w ∈ n.literals, w.natAbs ≤ v.maxLiteral := by
  induction n with
  | num w => exact List.forall_mem_singleton.2 covers
  | arith _ l r ihl ihr | cmp _ l r ihl ihr | and l r ihl ihr | seq l r ihl ihr | loop l r ihl ihr =>
    exact List.forall_mem_append.2 ⟨ihl covers.1, ihr covers.2⟩
  | not b ih => exact ih covers
  | assign x e ih => exact ih covers.2
  | cond b c d ihb ihc ihd =>
    exact List.forall_mem_append.2
      ⟨List.forall_mem_append.2 ⟨ihb covers.1, ihc covers.2.1⟩, ihd covers.2.2⟩
  | var | bool | skip | foreign => exact fun w mem => absurd mem List.not_mem_nil

/-- The names of a tree in a vocabulary are names of it. -/
lemma Vocabulary.Covers.names_mem {v : Vocabulary} {n : Node} (covers : v.Covers n) :
    ∀ x ∈ n.names, x ∈ v.names := by
  induction n with
  | var x => exact List.forall_mem_singleton.2 covers
  | arith _ l r ihl ihr | cmp _ l r ihl ihr | and l r ihl ihr | seq l r ihl ihr | loop l r ihl ihr =>
    exact List.forall_mem_append.2 ⟨ihl covers.1, ihr covers.2⟩
  | not b ih => exact ih covers
  | assign x e ih => exact List.forall_mem_cons.2 ⟨covers.1, ih covers.2⟩
  | cond b c d ihb ihc ihd =>
    exact List.forall_mem_append.2
      ⟨List.forall_mem_append.2 ⟨ihb covers.1, ihc covers.2.1⟩, ihd covers.2.2⟩
  | num | bool | skip | foreign => exact fun x mem => absurd mem List.not_mem_nil

/-- Whatever the source answers, a random tree of any size is well sorted, has the names and the literals
of its vocabulary, and a bounded number of nodes. A size below one counts as one. -/
theorem random_trees_usable {v : Vocabulary} (names : v.names ≠ []) (k : Category) (size : Int) (s : σ) :
    let t := (max size 1).toNat
    ∃ n s', (generate v k size).run s = .ok n s' ∧ n.WellSorted k ∧ (∀ x ∈ n.vars, x ∈ v.names) ∧
      (∀ w ∈ n.literals, -(v.maxLiteral : Int) ≤ w ∧ w ≤ v.maxLiteral) ∧
      (k = .command → n.size ≤ t * (t.log2 + 4)) ∧ (k ≠ .command → n.size ≤ 2 * t - 1) := by
  intro t
  have whole : max size.toNat 1 = t := by omega
  have literals {n : Node} (covers : v.Covers n) (w : Int) (mem : w ∈ n.literals) :
      -(v.maxLiteral : Int) ≤ w ∧ w ≤ v.maxLiteral := by
    have le := covers.literals_le w mem
    omega
  have vars {n : Node} (covers : v.Covers n) (x : String) (mem : x ∈ n.vars) : x ∈ v.names :=
    covers.names_mem x (Node.mem_vars.1 mem)
  cases k with
  | arith =>
    obtain ⟨n, s', drawn, sorted, covers, le⟩ := draws_arith names size.toNat s
    rw [exprBound, whole] at le
    exact ⟨n, s', drawn, sorted, vars covers, literals covers, by simp, fun _ => le⟩
  | bool =>
    obtain ⟨n, s', drawn, sorted, covers, le⟩ := draws_bool names size.toNat s
    rw [exprBound, whole] at le
    exact ⟨n, s', drawn, sorted, vars covers, literals covers, by simp, fun _ => le⟩
  | command =>
    obtain ⟨n, s', drawn, sorted, covers, le⟩ := draws_command names size.toNat s
    rw [commandBound, whole] at le
    exact ⟨n, s', drawn, sorted, vars covers, literals covers, fun _ => le, by simp⟩

/-- A command of a negative size is an assignment with a sum in it, as large as a command of size one can
be. -/
theorem smallest_command_usable :
    let script : Script := ⟨[50, 1, 50, 0, 0, 14, 99, 2], 0⟩
    let sum : Node := .assign "X" (.arith .plus (.num 4) (.var "Y"))
    Vocabulary.standard.names ≠ [] ∧
    (∃ s', (generate .standard .command (-3)).run script = .ok sum s') ∧ sum.WellSorted .command ∧
    (∀ x ∈ sum.vars, x ∈ Vocabulary.standard.names) ∧ (∀ w ∈ sum.literals, -10 ≤ w ∧ w ≤ 10) ∧
    sum.size = 4 ∧ sum.size ≤ 1 * (Nat.log2 1 + 4) := by
  intro script sum
  have names : Vocabulary.standard.names ≠ [] := by simp [Vocabulary.standard]
  obtain ⟨n, s', drawn, sorted, vars, literals, le, _⟩ :=
    random_trees_usable names .command (-3) script
  have answer : (generate .standard .command (-3)).run' script = some sum := by decide +kernel
  obtain rfl : n = sum := by
    delta EStateM.run' at answer
    rw [drawn] at answer
    exact Option.some.inj answer
  exact ⟨names, ⟨s', drawn⟩, sorted, vars, literals, rfl, le rfl⟩

end ImpSSA.Search
