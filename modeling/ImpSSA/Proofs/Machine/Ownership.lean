import ImpSSA.Proofs.Machine.History

/-!
# Who owns a cell

A cell records the depth of the stack at which it was allocated, and no function. `Through` says how
one step treats a cell: its depth stays, it dies when the function at its depth returns, and its
value changes by a store only. Along a history this makes a cell live exactly as long as the
activation that allocated it has not returned (`History.cell`), whatever is called at the same depth
later, and a load finds what was stored last (`History.lastStored`).
-/

namespace ImpSSA.Machine
open IR

/-- How a step with the access `acc` leads from the cell `c` at the address `a` to `c'`. -/
structure Through (acc : Option Access) (a : Nat) (s s' : State) (c c' : Cell) : Prop where
  depth : c'.depth = c.depth
  live : c'.live = true ↔
    c.live = true ∧ (s'.stack.length < s.stack.length → c.depth ≠ s.stack.length)
  stored : ∀ v, acc = some (.store a v) → c.live = true ∧ c'.value = v
  kept : (∀ v, acc ≠ some (.store a v)) → c'.value = c.value

/-- Live cells belong to functions on the stack. -/
def Owned (s : State) : Prop :=
  ∀ (a : Nat) (c : Cell), s.memory[a]? = some c → c.live = true → c.depth ≤ s.stack.length

/-- The value that was stored at `a` last before the `j`-th state, or the one of a new cell. -/
def LastStored (p : Program) (s : Nat → State) (j : Nat) (a : Int) (v : Value) : Prop :=
  (∃ k < j, access? p (s k) = some (.store a v) ∧
    ∀ l, k < l → l < j → ∀ w, access? p (s l) ≠ some (.store a w)) ∨
  (v = .undef ∧ ∀ k < j, ∀ w, access? p (s k) ≠ some (.store a w))

/-! ## One step -/

section
variable {p : Program} {s s' : State} {acc : Option Access} {e : Option Event} {a : Nat}
  {c c' : Cell} {v : Value}

/-- A step that neither stores to a cell nor returns leaves it alone. -/
lemma Through.same (idle : ∀ v, acc ≠ some (.store a v))
    (grows : s.stack.length ≤ s'.stack.length) : Through acc a s s' c c := by
  refine ⟨rfl, ⟨fun live => ⟨live, fun lt => ?_⟩, And.left⟩, ?_, fun _ => rfl⟩
  · exact absurd lt (Nat.not_lt.2 grows)
  · intro v eq
    exact absurd eq (idle v)

/-- A store to a live cell replaces its value. -/
lemma Through.write (live : c.live = true)
    (same : s'.stack.length = s.stack.length) :
    Through (some (.store a v)) a s s' c { c with value := v } := by
  refine ⟨rfl, ⟨fun live => ⟨live, fun lt => ?_⟩, And.left⟩, ?_, fun idle => absurd rfl (idle v)⟩
  · exact absurd lt (by omega)
  · intro w eq
    cases eq
    exact ⟨live, rfl⟩

/-- A return releases the cells of its function. -/
lemma Through.release (shrinks : s'.stack.length < s.stack.length) :
    Through none a s s' c (c.release s.stack.length) := by
  refine ⟨?_, ?_, nofun, fun _ => c.release_value _⟩
  · unfold Cell.release
    split <;> rfl
  · unfold Cell.release
    split
    · rename_i owned
      simp_all
    · rename_i other
      simp_all

/-- Every cell comes through a step. -/
lemma Effect.cell (eff : Effect p s acc e s') (found : s.memory[a]? = some c) :
    ∃ c', s'.memory[a]? = some c' ∧ Through acc a s s' c c' := by
  cases eff with
  | alloca =>
    have inside : a < s.memory.length := (List.getElem?_eq_some_iff.1 found).1
    refine ⟨c, ?_, .same nofun (Nat.le_refl _)⟩
    rw [← found]
    exact List.getElem?_append_left inside
  | load => exact ⟨c, found, .same nofun (Nat.le_refl _)⟩
  | @store _ cell v b foundb live =>
    by_cases eq : b = a
    · subst eq
      obtain rfl : cell = c := Option.some.inj (foundb.symm.trans found)
      have inside : b < s.memory.length := (List.getElem?_eq_some_iff.1 found).1
      exact ⟨_, List.getElem?_set_self inside, .write live rfl⟩
    · refine ⟨c, ?_, .same ?_ (Nat.le_refl _)⟩
      · rw [← found]
        exact List.getElem?_set_ne eq
      · intro w access
        cases access
        exact eq rfl
  | other => exact ⟨c, found, .same nofun (Nat.le_refl _)⟩
  | call => exact ⟨c, found, .same nofun (Nat.le_succ _)⟩
  | ret stack =>
    refine ⟨c.release s.stack.length, ?_, .release ?_⟩
    · rw [List.getElem?_map, found, Option.map_some]
    · rw [stack]
      exact Nat.lt_succ_self _

/-- A cell that was not there before is new. -/
lemma Effect.fresh (eff : Effect p s acc e s') (absent : s.memory[a]? = none)
    (found : s'.memory[a]? = some c') :
    acc = some .alloca ∧ s'.stack = s.stack ∧ c' = ⟨.undef, s.stack.length, true⟩ := by
  have outside : s.memory.length ≤ a := List.getElem?_eq_none_iff.1 absent
  cases eff with
  | alloca =>
    rw [List.getElem?_append_right outside] at found
    cases List.mem_singleton.1 (List.mem_of_getElem? found)
    exact ⟨rfl, rfl, rfl⟩
  | load | other | call =>
    rw [absent] at found
    cases found
  | store =>
    have inside := (List.getElem?_eq_some_iff.1 found).1
    rw [List.length_set] at inside
    omega
  | ret =>
    have inside := (List.getElem?_eq_some_iff.1 found).1
    rw [List.length_map] at inside
    omega

/-- A step makes the stack shallower by one frame at most. -/
lemma Effect.depth_le (eff : Effect p s acc e s') :
    s.stack.length ≤ s'.stack.length + 1 := by
  have depth := eff.depth
  split at depth <;> omega

/-- Where live cells belong to functions on the stack, those stay live that still do. -/
lemma Through.live_iff (h : Through acc a s s' c c')
    (eff : Effect p s acc e s') (owned : c.live = true → c.depth ≤ s.stack.length) :
    c'.live = true ↔ c.live = true ∧ c.depth ≤ s'.stack.length := by
  have shallower := eff.depth_le
  rw [h.live]
  apply and_congr_right
  intro live
  have below := owned live
  constructor
  · intro spared
    by_contra deeper
    exact spared (by omega) (by omega)
  · intro le lt
    omega

/-- A step leaves no live cell to a function that has returned. -/
lemma Effect.owned (eff : Effect p s acc e s') (owned : Owned s) : Owned s' := by
  intro a c' found' live'
  cases found : s.memory[a]? with
  | none =>
    obtain ⟨_, stack, rfl⟩ := eff.fresh found found'
    exact Int.ofNat_le.2 (Nat.le_of_eq (congrArg List.length stack.symm))
  | some c =>
    obtain ⟨c'', found'', through⟩ := eff.cell found
    obtain rfl : c'' = c' := Option.some.inj (found''.symm.trans found')
    rw [through.depth]
    exact ((through.live_iff eff (owned a c found)).1 live').2

/-- A released cell is never changed. -/
lemma Through.dead (h : Through acc a s s' c c') (dead : c.live = false) :
    c' = c := by
  have idle : ∀ v, acc ≠ some (.store a v) := by
    intro v eq
    rw [(h.stored v eq).1] at dead
    cases dead
  have dead' : c'.live = false := by
    cases live : c'.live with
    | false => rfl
    | true =>
      rw [(h.live.1 live).1] at dead
      cases dead
  obtain ⟨value, depth, live⟩ := c
  obtain ⟨value', depth', live'⟩ := c'
  have sameDepth := h.depth
  have sameValue := h.kept idle
  simp only at dead dead' sameDepth sameValue
  rw [dead, dead', sameDepth, sameValue]

/-- Only cells that exist are stored to. -/
lemma Effect.of_store {x : Int} (eff : Effect p s (some (.store x v)) e s') :
    ∃ a : Nat, x = a ∧ a < s.memory.length := by
  cases eff with
  | store found live => exact ⟨_, rfl, (List.getElem?_eq_some_iff.1 found).1⟩

/-- An allocation adds a live cell at the depth of the stack. -/
lemma Effect.of_alloca (eff : Effect p s (some .alloca) e s') :
    s'.stack = s.stack ∧ s'.memory[s.memory.length]? = some ⟨.undef, s.stack.length, true⟩ := by
  cases eff with
  | alloca => exact ⟨rfl, List.getElem?_concat_length⟩

/-- A load binds the value of the cell. -/
lemma Effect.of_load {x : Int} (eff : Effect p s (some (.load x)) e s') :
    ∃ (a : Nat) (c : Cell), x = a ∧ s.memory[a]? = some c ∧
      s'.env = Env.result s.env s.pc.id c.value := by
  cases eff with
  | load found live => exact ⟨_, _, rfl, found, rfl⟩

end

/-! ## Whole histories -/

section
variable {p : Program} {s : Nat → State} {j : Nat} {a : Int} {v : Value}

/-- A step that does not store there changes nothing about what was stored last. -/
lemma LastStored.skip (h : LastStored p s j a v)
    (idle : ∀ w, access? p (s j) ≠ some (.store a w)) : LastStored p s (j + 1) a v := by
  rcases h with ⟨k, lt, stored, later⟩ | ⟨rfl, never⟩
  · refine .inl ⟨k, Nat.lt_succ_of_lt lt, stored, ?_⟩
    intro l after before
    rcases Nat.lt_succ_iff_lt_or_eq.1 before with before | rfl
    · exact later l after before
    · exact idle
  · refine .inr ⟨rfl, ?_⟩
    intro k before
    rcases Nat.lt_succ_iff_lt_or_eq.1 before with before | rfl
    · exact never k before
    · exact idle

/-- What a step stores was stored last behind it. -/
lemma LastStored.write (stored : access? p (s j) = some (.store a v)) :
    LastStored p s (j + 1) a v := by
  refine .inl ⟨j, Nat.lt_succ_self j, stored, ?_⟩
  intro l after before
  omega

end

section
variable {p : Program} {entry : Key} {args : List Value} {n : Nat} {s : Nat → State}
  {i j a : Nat} {c : Cell}

/-- In no state of a history a live cell belongs to a function that has returned. -/
lemma History.owned (run : History p entry args n s) (le : i ≤ n) : Owned (s i) := by
  refine run.preserves (I := Owned) ?_ (fun owned eff => eff.owned owned) le
  intro s₀ start a c found
  obtain ⟨d, pc, _, _, rfl⟩ := of_init start
  cases found

/-- A cell keeps its depth, and stays live as long as the stack does not get below it. -/
lemma History.cell (run : History p entry args n s) (le : i ≤ j) (inside : j ≤ n)
    (found : (s i).memory[a]? = some c) :
    ∃ c', (s j).memory[a]? = some c' ∧ c'.depth = c.depth ∧
      (c'.live = true ↔
        c.live = true ∧ ∀ k, i < k → k ≤ j → c.depth ≤ (s k).stack.length) := by
  induction le with
  | refl =>
    refine ⟨c, found, rfl, fun live => ⟨live, ?_⟩, And.left⟩
    intro k lt le
    omega
  | @step j le ih =>
    obtain ⟨c₁, found₁, depth₁, live₁⟩ := ih (Nat.le_of_succ_le inside)
    have eff := run.effect (show j < n from inside)
    obtain ⟨c₂, found₂, through⟩ := eff.cell found₁
    have live₂ := through.live_iff eff (run.owned (Nat.le_of_succ_le inside) a c₁ found₁)
    refine ⟨c₂, found₂, through.depth.trans depth₁, ?_⟩
    rw [live₂, live₁, depth₁, and_assoc]
    apply and_congr_right
    intro _
    constructor
    · rintro ⟨before, now⟩ k lt le'
      rcases Nat.le_succ_iff.1 le' with le' | rfl
      · exact before k lt le'
      · exact now
    · intro always
      refine ⟨fun k lt le' => always k lt (Nat.le_succ_of_le le'), always (j + 1) ?_ (Nat.le_refl _)⟩
      exact Nat.lt_succ_of_le le

/-- A released cell stays as it is. -/
lemma History.dead (run : History p entry args n s) (le : i ≤ j) (inside : j ≤ n)
    (found : (s i).memory[a]? = some c) (dead : c.live = false) :
    (s j).memory[a]? = some c := by
  induction le with
  | refl => exact found
  | step _ ih =>
    have found₁ := ih (Nat.le_of_succ_le inside)
    obtain ⟨c₂, found₂, through⟩ := (run.effect inside).cell found₁
    rw [found₂, through.dead dead]

/-- Memory never shrinks. -/
lemma History.length_le (run : History p entry args n s) (le : i ≤ j) (inside : j ≤ n) :
    (s i).memory.length ≤ (s j).memory.length := by
  by_contra shrunk
  have last : (s j).memory.length < (s i).memory.length := by omega
  obtain ⟨c', found, _⟩ := run.cell le inside (List.getElem?_eq_getElem last)
  exact absurd (List.getElem?_eq_some_iff.1 found).1 (Nat.lt_irrefl _)

/-- A cell holds what was stored last. -/
lemma History.lastStored (run : History p entry args n s) (le : j ≤ n)
    (found : (s j).memory[a]? = some c) : LastStored p s j a c.value := by
  induction j generalizing c with
  | zero =>
    obtain ⟨d, pc, _, _, start⟩ := of_init run.start
    rw [start] at found
    cases found
  | succ j ih =>
    have eff := run.effect le
    cases before : (s j).memory[a]? with
    | none =>
      obtain ⟨_, _, rfl⟩ := eff.fresh before found
      refine .inr ⟨rfl, ?_⟩
      -- a store to `a` would have found the cell before it was allocated
      intro k lt w stored
      have effk := run.effect (Nat.lt_of_lt_of_le lt le)
      rw [stored] at effk
      obtain ⟨b, same, inside⟩ := effk.of_store
      have grows := run.length_le (Nat.le_of_lt_succ lt) (Nat.le_of_succ_le le)
      have outside := List.getElem?_eq_none_iff.1 before
      omega
    | some c₀ =>
      obtain ⟨c₁, found₁, through⟩ := eff.cell before
      obtain rfl : c₁ = c := Option.some.inj (found₁.symm.trans found)
      by_cases stores : ∃ v, access? p (s j) = some (.store a v)
      · obtain ⟨v, stored⟩ := stores
        rw [(through.stored v stored).2]
        exact .write stored
      · have idle : ∀ v, access? p (s j) ≠ some (.store a v) := fun v eq => stores ⟨v, eq⟩
        rw [through.kept idle]
        exact (ih (Nat.le_of_succ_le le) before).skip idle

end

/-- Memory over whole runs. It never shrinks. A cell that is allocated at some depth of the stack
keeps that depth, and is live exactly as long as the stack has not been below it. A dead cell stays
as it is. A load yields what was stored last at its address, or nothing defined if no store was. -/
theorem memory_over_runs {p : Program} {entry : Key} {args : List Value} {n : Nat}
    {s : Nat → State} (run : History p entry args n s) :
    (∀ i j, i ≤ j → j ≤ n → (s i).memory.length ≤ (s j).memory.length) ∧
    (∀ i j, i < j → j ≤ n → access? p (s i) = some .alloca →
      ∃ c, (s j).memory[(s i).memory.length]? = some c ∧ c.depth = (s i).stack.length ∧
        (c.live = true ↔ ∀ k, i < k → k ≤ j → (s i).stack.length ≤ (s k).stack.length)) ∧
    (∀ i j (a : Nat) c, i ≤ j → j ≤ n → (s i).memory[a]? = some c → c.live = false →
      (s j).memory[a]? = some c) ∧
    (∀ i a, i < n → access? p (s i) = some (.load a) →
      ∃ v, (s (i + 1)).env = Env.result (s i).env (s i).pc.id v ∧ LastStored p s i a v) := by
  refine ⟨fun i j le inside => run.length_le le inside, ?_,
    fun i j a c le inside found dead => run.dead le inside found dead, ?_⟩
  · intro i j lt inside access
    have eff := run.effect (Nat.lt_of_lt_of_le lt inside)
    rw [access] at eff
    obtain ⟨stack, found⟩ := eff.of_alloca
    obtain ⟨c, found', depth, live⟩ := run.cell lt inside found
    refine ⟨c, found', depth, live.trans ?_⟩
    simp only [true_and, Int.ofNat_le]
    -- the step of the allocation itself leaves the stack alone
    constructor
    · intro above k after le
      rcases Nat.lt_or_eq_of_le after with after | rfl
      · exact above k after le
      · exact Nat.le_of_eq (congrArg List.length stack.symm)
    · intro above k after le
      exact above k (Nat.lt_of_succ_lt after) le
  · intro i a lt access
    have eff := run.effect lt
    rw [access] at eff
    obtain ⟨b, c, rfl, found, env⟩ := eff.of_load
    exact ⟨c.value, env, run.lastStored (Nat.le_of_lt lt) found⟩

/-- A function that stores to a cell of its caller and returns the address of its own. -/
def danglingCell : Program :=
  ⟨[.define ⟨.named "main", ⟨.void, []⟩, [],
      [⟨.anon 0,
        [(.result (.anon 1), .instr (.alloca .i64)),
          (.void 1, .instr (.store .i64 (.int 7) (.register (.anon 1)))),
          (.result (.anon 2),
            .instr (.call (.ptr .i64) (.global (.named "f")) [(.ptr .i64, .register (.anon 1))])),
          (.result (.anon 3), .instr (.load .i64 (.register (.anon 1))))],
        (.void 2, .term .retVoid)⟩]⟩,
    .define ⟨.named "f", ⟨.ptr .i64, [.ptr .i64]⟩, [.named "p"],
      [⟨.anon 0,
        [(.result (.anon 1), .instr (.alloca .i64)),
          (.void 1, .instr (.store .i64 (.int 8) (.register (.named "p"))))],
        (.void 2, .term (.ret (.ptr .i64) (.register (.anon 1))))⟩]⟩]⟩

/-- The cell of the callee is there after its return, and lives only if the stack was never lower; the
caller loads what was stored last to its own cell. -/
theorem danglingCell_memory :
    ∃ s, History danglingCell (.named "main") [] 7 s ∧
      access? danglingCell (s 3) = some .alloca ∧ access? danglingCell (s 6) = some (.load 0) ∧
      (∃ c, (s 7).memory[(s 3).memory.length]? = some c ∧ c.depth = (s 3).stack.length ∧
        (c.live = true ↔ ∀ k, 3 < k → k ≤ 7 → (s 3).stack.length ≤ (s k).stack.length)) ∧
      ∃ v, (s 7).env = Env.result (s 6).env (s 6).pc.id v ∧ LastStored danglingCell s 6 0 v := by
  let s₀ : State := ⟨⟨.named "main", .anon 0, .result (.anon 1)⟩, ∅, [], []⟩
  let s := stateAfter (fun s => (step danglingCell s).next?) s₀
  have run : History danglingCell (.named "main") [] 7 s := .of_stateAfter rfl (by decide +kernel)
  have alloca : access? danglingCell (s 3) = some .alloca := rfl
  have load : access? danglingCell (s 6) = some (.load 0) := rfl
  obtain ⟨_, owned, _, loads⟩ := memory_over_runs run
  exact ⟨_, run, alloca, load, owned 3 7 (by decide) (by decide) alloca, loads 6 0 (by decide) load⟩

end ImpSSA.Machine
