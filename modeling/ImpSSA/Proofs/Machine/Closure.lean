import ImpSSA.Proofs.Lists
import ImpSSA.Proofs.Machine.Faults
import ImpSSA.Proofs.Machine.Provenance
import ImpSSA.Proofs.Machine.Steps

/-!
# The values of a run

A run that is started with literals only holds closed values: literals, addresses of cells that
exist and pointers to functions of the program. References and operator expressions stand in
operands and never become values. So no pointer is foreign to memory when it is dereferenced.
-/

namespace ImpSSA.Machine
open IR

/-- The values of a run with `m` cells. -/
def Closed (p : Program) (m : Nat) : Value → Prop
  | .addr n => 0 ≤ n ∧ n < m
  | .fnPtr k => p.knows k = true
  | .register _ | .global _ | .binop .. | .icmp .. | .gep .. => False
  | .int _ | .bool _ | .null | .zero | .str _ | .undef | .foreign => True

/-- The fault of a pointer that no cell belongs to. -/
def Stop.foreign : Stop → Bool
  | .fault (.foreignPointer _) => true
  | _ => false

/-- Literals are closed. -/
lemma closed_of_isLiteral {p m v} (lit : v.isLiteral = true) : Closed p m v := by
  cases v with
  | int | bool | null | zero | str | undef | foreign => trivial
  | _ => cases lit

/-- The sources of values provide closed values only. -/
lemma provenance_closed (p : Program) : Provenance p (Closed p) where
  literal := closed_of_isLiteral
  function known := known
  address {m n} lt := ⟨Int.natCast_nonneg n, Int.ofNat_lt.2 lt⟩
  mono {m n v} le closed := by
    cases v with
    | addr a =>
      have below : (m : Int) ≤ n := Int.ofNat_le.2 le
      exact ⟨closed.1, Int.lt_of_lt_of_le closed.2 below⟩
    | _ => exact closed

/-- A run that starts with literals starts with closed values. -/
lemma closed_init {p entry args s} (literals : ∀ v ∈ args, v.isLiteral = true)
    (h : init p entry args = .ok s) : s.All (Closed p s.memory.length) := by
  obtain ⟨d, pc, _, _, rfl⟩ := of_init h
  refine ⟨Env.All.ofList ?_, List.forall_mem_nil _, List.forall_mem_nil _⟩
  intro v mem
  exact closed_of_isLiteral (literals v mem)

/-- A run that is started with literals keeps all values closed. -/
lemma Reachable.closed {p entry args s} (literals : ∀ v ∈ args, v.isLiteral = true)
    (reach : Reachable p entry args s) : s.All (Closed p s.memory.length) := by
  apply reach.of_step (I := fun s => s.All (Closed p s.memory.length))
  · exact closed_init literals
  · intro s s' all next
    exact all.exec (provenance_closed p) (exec_of_next? next) next

/-! ## Pointers are not foreign -/

/-- The faults about values at hand are not those of foreign pointers. -/
lemma foreign_of_ofValues (f : Fault) (h : f.ofValues = true) :
    Stop.faults Stop.foreign f = false := by
  cases f with
  | foreignPointer => cases h
  | _ => rfl

/-- An address of a cell is not foreign. -/
lemma deref_closed {p memory v} (closed : Closed p memory.length v) :
    Tame (Stop.faults Stop.foreign) (deref memory v) := by
  unfold deref
  split
  · rename_i n
    obtain ⟨nonneg, lt⟩ := closed
    rw [if_neg (Int.not_lt.2 nonneg)]
    have inside : n.toNat < memory.length := by omega
    rw [List.getElem?_eq_getElem inside]
    simp only
    split
    · exact .ok _
    · exact .error rfl
  · exact .error rfl

/-- Fetching an item uses no pointers. -/
lemma fetch_not_foreign (p : Program) (pc : Pc) : Tame (Stop.faults Stop.foreign) (fetch p pc) := by
  unfold fetch
  split
  · exact .error rfl
  · split
    · exact .ok _
    · exact .error rfl

/-- Entering a block uses no pointers. -/
lemma enter_not_foreign (p : Program) (fn label : Key) :
    Tame (Stop.faults Stop.foreign) (enter p fn label) := by
  unfold enter
  split
  · exact .ok _
  · exact .error rfl

/-- A call uses no pointers to memory. -/
lemma execCall_not_foreign (p : Program) (s : State) (next : Pc) (f : Value)
    (args : List (Ty × Value)) : Tame Stop.foreign (execCall p s next f args) := by
  refine .bind (callee_tame foreign_of_ofValues p s.env f).faulty fun fn _ => ?_
  refine .bind (operands_tame foreign_of_ofValues p s.env args).faulty fun vs _ => ?_
  split
  · split
    · split
      · exact .ok _
      · exact .error rfl
    · exact .error rfl
  · split
    · exact .ok _
    · exact .error rfl

/-- Where all values are closed no step finds a foreign pointer. -/
lemma exec_not_foreign {p s} (all : s.All (Closed p s.memory.length)) :
    Tame Stop.foreign (exec p s) := by
  refine .bind (fetch_not_foreign p s.pc).faulty fun item _ => ?_
  split
  · exact (execTerm_tame foreign_of_ofValues fun l _ => enter_not_foreign p _ l).faulty
  · split
    · refine execInstr_tame foreign_of_ofValues ?_ ?_
      · intro v w hw
        exact deref_closed ((provenance_closed p).operand all.env hw)
      · intro ty f args _
        exact execCall_not_foreign p s _ f args
    · exact .error rfl

/-- The text of the fault of a foreign pointer. -/
def foreignText : String := "dereference of foreign pointer"

/-- The texts of all other faults begin differently. -/
lemma Fault.text_of_not_foreign {f : Fault} (h : Stop.foreign (.fault f) = false) :
    ¬ foreignText.toList <+: f.message.toList := by
  cases f with
  | foreignPointer => cases h
  | _ =>
    delta message
    simp only [String.toList_append, List.append_assoc]
    exact not_prefix_append (by decide)

/-- In every state that a run started with literals comes to, all values are closed, and so are
those that it passes to functions defined elsewhere and the one that it ends with. No step reports a
pointer that is foreign to memory. -/
theorem reachable_values_closed {p : Program} {entry : Key} {args : List Value} {s : State}
    (literals : ∀ v ∈ args, v.isLiteral = true) (reach : Reachable p entry args s) :
    s.All (Closed p s.memory.length) ∧
      (∀ s' name vs, step p s = .external s' name vs → ∀ v ∈ vs, Closed p s.memory.length v) ∧
      (∀ memory v, step p s = .terminated memory (some v) → Closed p s.memory.length v) ∧
      ∀ f, step p s = .faulted f → ¬ foreignText.toList <+: f.message.toList := by
  have all := reach.closed literals
  refine ⟨all, ?_, ?_, ?_⟩
  · intro s' name vs st
    have rule : Exec p s (.external s' name vs) := .of_step st ⟨nofun, nofun⟩
    exact all.external (provenance_closed p) rule
  · intro memory v st
    have rule : Exec p s (.terminated memory (some v)) := .of_step st ⟨nofun, nofun⟩
    exact all.terminated (provenance_closed p) rule
  · intro f st
    exact Fault.text_of_not_foreign (exec_not_foreign all _ (exec_of_faulted st))

/-- A program that calls a function defined elsewhere through a pointer in memory, and returns the
address of the cell. -/
def escapingCell : Program :=
  ⟨[.declare ⟨.named "print", ⟨.void, [.i64]⟩⟩,
    .define ⟨.named "main", ⟨.ptr .i64, [.i64]⟩, [.named "x"],
      [⟨.anon 0,
        [(.result (.anon 1), .instr (.alloca .i64)),
          (.void 1, .instr (.store .i64 (.global (.named "print")) (.register (.anon 1)))),
          (.result (.anon 2), .instr (.load .i64 (.gep .i64 (.register (.anon 1)) [.int 0]))),
          (.void 2, .instr (.call .void (.register (.anon 2)) [(.i64, .register (.named "x"))]))],
        (.void 3, .term (.ret (.ptr .i64) (.register (.anon 1))))⟩]⟩]⟩

/-- The program comes to a state in which a register holds the function, and ends with the address. -/
theorem escapingCell_values_closed :
    (∀ v ∈ [Value.int 7], v.isLiteral = true) ∧
      ∃ s, Reachable escapingCell (.named "main") [.int 7] s ∧
        s.env.get? (.anon 2) = some (.fnPtr (.named "print")) ∧
        step escapingCell s = .terminated [.fnPtr (.named "print")] (some (.addr 0)) ∧
        s.All (Closed escapingCell s.memory.length) ∧
        Closed escapingCell s.memory.length (.addr 0) := by
  have literals : ∀ v ∈ [Value.int 7], v.isLiteral = true := by simp [Value.isLiteral]
  obtain ⟨s, reach, bound, last⟩ :
      ∃ s, Reachable escapingCell (.named "main") [.int 7] s ∧
        s.env.get? (.anon 2) = some (.fnPtr (.named "print")) ∧
        step escapingCell s = .terminated [.fnPtr (.named "print")] (some (.addr 0)) :=
    ⟨_, ⟨_, _, _, rfl, .stepped rfl (.stepped rfl (.stepped rfl (.external rfl .refl)))⟩, rfl, rfl⟩
  obtain ⟨all, _, ends, _⟩ := reachable_values_closed literals reach
  exact ⟨literals, s, reach, bound, last, all, ends _ _ last⟩

end ImpSSA.Machine
