import ImpSSA.Proofs.Table
import ImpSSA.Proofs.Machine.Rules

/-!
# Where values come from

Values enter a run as literals, as pointers to functions of the program and as addresses of cells
that exist. `Provenance p P` says that a property `P` of values, which may depend on the number of
cells, holds of all these and is kept when memory grows. `State.All.exec` then carries `P` from all
values of a state to all values of the next one, whatever the program does with them: operands,
loads, stores, arguments, results and saved registers only move values around.
-/

namespace ImpSSA

open IR

/-- Operands that stand for themselves. -/
def IR.Value.isLiteral : Value → Bool
  | .int _ | .bool _ | .null | .zero | .str _ | .undef | .foreign => true
  | .register _ | .global _ | .binop .. | .icmp .. | .gep .. | .addr _ | .fnPtr _ => false

namespace Machine

/-- All values of registers have a property. -/
def Env.All (P : Value → Prop) (env : Env) : Prop := ∀ k v, env.get? k = some v → P v

/-- All values of a state have a property. -/
structure State.All (P : Value → Prop) (s : State) : Prop where
  env : Env.All P s.env
  stack : ∀ f ∈ s.stack, Env.All P f.env
  memory : ∀ c ∈ s.memory, P c.value

/-- A property of values, given the number of cells, that every source of values provides. -/
structure Provenance (p : Program) (P : Nat → Value → Prop) : Prop where
  literal {m v} : v.isLiteral = true → P m v
  function {m k} : p.knows k = true → P m (.fnPtr k)
  address {m n : Nat} : n < m → P m (.addr n)
  mono {m n v} : m ≤ n → P m v → P n v

/-- Arithmetic makes literals. -/
lemma binary_isLiteral {op ty u v w} (h : binary op ty u v = .ok w) : w.isLiteral = true := by
  unfold binary at h
  split at h
  · cases h
  · cases h
    rfl
  · cases h
    rfl
  · cases h
    rfl
  · obtain ⟨n, _, ⟨⟩⟩ := bind_eq_ok.1 h
    rfl
  · cases h

/-- A comparison makes literals. -/
lemma comparison_isLiteral {c u v w} (h : comparison c u v = .ok w) : w.isLiteral = true := by
  unfold comparison at h
  split at h <;> first
    | cases h
      rfl
    | cases h

namespace Provenance
variable {p : Program} {P : Nat → Value → Prop}

/-- An operand without parts comes from a source, or from a register. -/
lemma atom {m env v w} (pr : Provenance p P) (all : Env.All (P m) env)
    (h : atom p env v = .ok w) : P m w := by
  cases v with
  | register k =>
    simp only [Machine.atom] at h
    split at h
    · rename_i found
      cases h
      exact all _ _ found
    · cases h
  | global k =>
    simp only [Machine.atom] at h
    split at h
    · rename_i known
      cases h
      exact pr.function known
    · cases h
  | int | bool | null | zero | str | undef | foreign =>
    cases h
    exact pr.literal rfl
  | _ => cases h

/-- Operands have the property if registers do. -/
lemma operand {m env v w} (pr : Provenance p P) (all : Env.All (P m) env)
    (h : operand p env v = .ok w) : P m w := by
  cases v with
  | binop op ty l r =>
    obtain ⟨a, _, h⟩ := bind_eq_ok.1 h
    obtain ⟨b, _, h⟩ := bind_eq_ok.1 h
    exact pr.literal (binary_isLiteral h)
  | icmp c ty l r =>
    obtain ⟨a, _, h⟩ := bind_eq_ok.1 h
    obtain ⟨b, _, h⟩ := bind_eq_ok.1 h
    exact pr.literal (comparison_isLiteral h)
  | gep ty base indices =>
    obtain ⟨a, base, h⟩ := bind_eq_ok.1 h
    split at h
    · obtain ⟨_, _, ⟨⟩⟩ := bind_eq_ok.1 h
      exact pr.atom all base
    · cases h
  | _ =>
    simp only [Machine.operand] at h
    exact pr.atom all h

/-- Arguments come from sources, or from registers. -/
lemma operands {m env vs} {args : List (Ty × Value)} (pr : Provenance p P)
    (all : Env.All (P m) env) (h : args.mapM (fun (_, v) => Machine.operand p env v) = .ok vs) :
    ∀ v ∈ vs, P m v := by
  induction args generalizing vs with
  | nil =>
    cases h
    exact nofun
  | cons a args ih =>
    rw [List.mapM_cons] at h
    obtain ⟨v, hv, h⟩ := bind_eq_ok.1 h
    obtain ⟨vs', hvs, ⟨⟩⟩ := bind_eq_ok.1 h
    exact List.forall_mem_cons.2 ⟨pr.operand all hv, ih hvs⟩

end Provenance

/-- A weaker property holds of all values too. -/
lemma State.All.mono {P Q : Value → Prop} {s : State} (all : s.All P) (weaker : ∀ {v}, P v → Q v) :
    s.All Q :=
  ⟨fun _ _ found => weaker (all.env _ _ found),
    fun f mem _ _ found => weaker (all.stack f mem _ _ found),
    fun c mem => weaker (all.memory c mem)⟩

/-- A register is set to a value of the kind. -/
lemma Env.All.insert {P : Value → Prop} {env : Env} {k v} (all : Env.All P env) (hv : P v) :
    Env.All P (Table.insert env k v) := by
  intro j w found
  rw [Table.get?_insert] at found
  split at found
  · cases found
    exact hv
  · exact all _ _ found

/-- A result of the kind is kept, if it is kept at all. -/
lemma Env.All.result {P : Value → Prop} {env : Env} {i v} (all : Env.All P env) (hv : P v) :
    Env.All P (Env.result env i v) := by
  cases i with
  | result k => exact all.insert hv
  | void n => exact all

/-- Parameters are set to arguments of the kind. -/
lemma Env.All.ofList {P : Value → Prop} {params : List Key} {vs : List Value}
    (all : ∀ v ∈ vs, P v) : Env.All P (Table.ofList (params.zip vs)) := by
  intro k v found
  exact all v (List.of_mem_zip (Table.mem_of_get?_ofList found)).2

/-- The end of a function leaves the values of cells. -/
lemma Cell.release_value (depth : Nat) (c : Cell) : (c.release depth).value = c.value := by
  unfold release
  split <;> rfl

/-- A return with a value that has the property keeps all values within it. -/
lemma State.All.ret {P : Nat → Value → Prop} {s v o s'} (all : s.All (P s.memory.length))
    (hv : ∀ w, v = some w → P s.memory.length w) (h : ReturnExec s v o) (next : o.next? = some s') :
    s'.All (P s'.memory.length) := by
  have released : ∀ c ∈ s.memory.map (Cell.release s.stack.length), P s.memory.length c.value := by
    intro c mem
    obtain ⟨c', mem', rfl⟩ := List.mem_map.1 mem
    rw [Cell.release_value]
    exact all.memory c' mem'
  cases h with
  | outermost => cases next
  | @discard frame stack eq _ =>
    cases next
    have frames := all.stack
    rw [eq, List.forall_mem_cons] at frames
    simp only [List.length_map]
    exact ⟨frames.1, frames.2, released⟩
  | @bind frame stack k w eq _ hw =>
    cases next
    have frames := all.stack
    rw [eq, List.forall_mem_cons] at frames
    simp only [List.length_map]
    exact ⟨frames.1.insert (hv w hw), frames.2, released⟩

/-- An instruction keeps all values within a property that their sources provide. -/
lemma State.All.instr {p P s pc i o s'} (pr : Provenance p P) (all : s.All (P s.memory.length))
    (h : InstrExec p s pc i o) (next : o.next? = some s') : s'.All (P s'.memory.length) := by
  cases h with
  | binop _ _ hw =>
    cases next
    exact ⟨all.env.result (pr.literal (binary_isLiteral hw)), all.stack, all.memory⟩
  | icmp _ _ hw =>
    cases next
    exact ⟨all.env.result (pr.literal (comparison_isLiteral hw)), all.stack, all.memory⟩
  | alloca =>
    cases next
    have more : s.memory.length ≤ s.memory.length + 1 := Nat.le_succ _
    have old := all.mono (pr.mono more)
    simp only [List.length_append, List.length_singleton]
    refine ⟨old.env.result (pr.address (Nat.lt_succ_self _)), old.stack, ?_⟩
    intro c mem
    rcases List.mem_append.1 mem with mem | mem
    · exact old.memory c mem
    · cases List.mem_singleton.1 mem
      exact pr.literal rfl
  | load _ hd =>
    cases next
    have mem := List.mem_of_getElem? (of_deref hd).2.1
    exact ⟨all.env.result (all.memory _ mem), all.stack, all.memory⟩
  | store hu _ _ =>
    cases next
    simp only [List.length_set]
    refine ⟨all.env, all.stack, ?_⟩
    intro c mem
    rcases List.mem_or_eq_of_mem_set mem with mem | rfl
    · exact all.memory c mem
    · exact pr.operand all.env hu
  | call _ hvs _ _ _ =>
    cases next
    refine ⟨Env.All.ofList (pr.operands all.env hvs), ?_, all.memory⟩
    exact List.forall_mem_cons.2 ⟨all.env, all.stack⟩
  | external _ _ _ _ =>
    cases next
    exact ⟨all.env.result (pr.literal rfl), all.stack, all.memory⟩

/-- A step keeps all values within a property that their sources provide. -/
lemma State.All.exec {p P s o s'} (pr : Provenance p P) (all : s.All (P s.memory.length))
    (h : Exec p s o) (next : o.next? = some s') : s'.All (P s'.memory.length) := by
  cases h with
  | instr _ _ h => exact all.instr pr h next
  | term _ h =>
    cases h with
    | br _ =>
      cases next
      exact ⟨all.env, all.stack, all.memory⟩
    | condBr _ _ =>
      cases next
      exact ⟨all.env, all.stack, all.memory⟩
    | retVoid h => exact all.ret (fun _ eq => by cases eq) h next
    | ret hv h =>
      refine all.ret ?_ h next
      intro w eq
      cases eq
      exact pr.operand all.env hv

/-- What a run passes to a function defined elsewhere has the property. -/
lemma State.All.external {p P m s s' name vs} (pr : Provenance p P) (all : s.All (P m))
    (h : Exec p s (.external s' name vs)) : ∀ v ∈ vs, P m v := by
  cases h with
  | instr _ _ h =>
    cases h with
    | external _ hvs _ _ => exact pr.operands all.env hvs
  | term _ h =>
    cases h with
    | retVoid h => cases h
    | ret _ h => cases h

/-- What a run ends with has the property. -/
lemma State.All.terminated {p P m s memory v} (pr : Provenance p P) (all : s.All (P m))
    (h : Exec p s (.terminated memory (some v))) : P m v := by
  cases h with
  | instr _ _ h => cases h
  | term _ h =>
    cases h with
    | retVoid h => cases h
    | ret hv h =>
      cases h
      exact pr.operand all.env hv

end Machine

end ImpSSA
