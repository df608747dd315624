import ImpSSA.Proofs.Machine.Ownership

/-!
# Calls and returns

Calls and returns match like brackets. A call suspends its caller in a frame on top of the stack.
As long as the stack does not get below that frame, whatever the callee does happens above it
(`History.suffix`), so the step that does get below is the return that takes exactly this frame
off. It resumes the caller with its registers, behind the call. By then the cells that were allocated
since are dead, because they belong to depths that are gone.
-/

namespace ImpSSA.Machine
open IR

/-- How often an event occurs in the first `i` steps. -/
def events (p : Program) (s : Nat → State) (e : Event) (i : Nat) : Nat :=
  (List.range i).countP fun k => (step p (s k)).event? = some e

/-! ## One step -/

section
variable {p : Program} {s s' : State} {acc : Option Access} {e : Option Event}

/-- A call suspends the caller and leaves memory alone. -/
lemma Effect.of_call (eff : Effect p s acc (some .call) s') :
    ∃ next, s.pc.next? p = some next ∧
      s'.stack = ⟨s.env, next, s.pc.id.register?⟩ :: s.stack ∧ s'.memory = s.memory := by
  cases eff with
  | other call _ => exact absurd rfl call
  | call next => exact ⟨_, next, rfl, rfl⟩

/-- A return resumes the caller on top of the stack. -/
lemma Effect.of_ret {frame stack} (eff : Effect p s acc (some .ret) s')
    (top : s.stack = frame :: stack) :
    s'.pc = frame.ret ∧ s'.stack = stack ∧ frame.resume (returned? p s) = some s'.env := by
  cases eff with
  | other _ ret => exact absurd rfl ret
  | ret stack resumed =>
    cases top.symm.trans stack
    exact ⟨rfl, rfl, resumed⟩

/-- What lies at the bottom of the stack stays there unless the stack gets below it. -/
lemma Effect.suffix {base} (eff : Effect p s acc e s') (below : base <:+ s.stack)
    (deep : base.length ≤ s'.stack.length) : base <:+ s'.stack := by
  cases eff with
  | alloca | load | store | other => exact below
  | call => exact below.trans (List.suffix_cons _ _)
  | ret stack =>
    rw [stack, List.suffix_cons_iff] at below
    rcases below with rfl | below
    · exact absurd deep (by simp)
    · exact below

end

/-- A caller that waits for a result gets one. -/
lemma Frame.resume_some {env ret k v env'} (h : Frame.resume ⟨env, ret, some k⟩ v = some env') :
    ∃ w, v = some w ∧ env' = env.insert k w := by
  cases v with
  | some w =>
    cases h
    exact ⟨w, rfl, rfl⟩
  | none => cases h

/-- A caller that waits for no result goes on with its registers as they were. -/
lemma Frame.resume_none {env ret v env'} (h : Frame.resume ⟨env, ret, none⟩ v = some env') :
    env' = env := by
  cases h
  rfl

/-! ## Whole histories -/

section
variable {p : Program} {entry : Key} {args : List Value} {n : Nat} {s : Nat → State} {i j : Nat}

/-- The depth of the stack is the number of calls that have not returned. -/
lemma History.depth_eq (run : History p entry args n s) (le : i ≤ n) :
    (s i).stack.length + events p s .ret i = events p s .call i := by
  induction i with
  | zero =>
    obtain ⟨d, pc, _, _, start⟩ := of_init run.start
    rw [start]
    rfl
  | succ i ih =>
    have before := ih (Nat.le_of_succ_le le)
    have depth := (run.effect le).depth
    simp only [events, List.range_succ, List.countP_append, List.countP_singleton,
      decide_eq_true_eq] at before ⊢
    omega

/-- What a call puts on the stack stays there until the stack gets below it. -/
lemma History.suffix {base} (run : History p entry args n s) (le : i ≤ j) (inside : j ≤ n)
    (start : base <:+ (s i).stack)
    (deep : ∀ k, i ≤ k → k ≤ j → base.length ≤ (s k).stack.length) : base <:+ (s j).stack := by
  induction le with
  | refl => exact start
  | @step j le ih =>
    have before : base <:+ (s j).stack := by
      apply ih (Nat.le_of_succ_le inside)
      intro k ge le'
      exact deep k ge (Nat.le_succ_of_le le')
    exact (run.effect inside).suffix before (deep _ (Nat.le_succ_of_le le) (Nat.le_refl _))

/-- Cells allocated while the stack is deeper than `d` have greater depths. -/
lemma History.depth_of_new {d} (run : History p entry args n s) (le : i ≤ j) (inside : j ≤ n)
    (deep : ∀ k, i ≤ k → k < j → d < (s k).stack.length) {a : Nat} {c : Cell}
    (new : (s i).memory.length ≤ a) (found : (s j).memory[a]? = some c) : d < c.depth := by
  induction le generalizing c with
  | refl => exact absurd (List.getElem?_eq_some_iff.1 found).1 (Nat.not_lt.2 new)
  | @step j le ih =>
    have eff := run.effect inside
    cases before : (s j).memory[a]? with
    | none =>
      obtain ⟨_, _, rfl⟩ := eff.fresh before found
      exact Int.ofNat_lt.2 (deep j le (Nat.lt_succ_self j))
    | some c₀ =>
      obtain ⟨c₁, found₁, through⟩ := eff.cell before
      obtain rfl : c₁ = c := Option.some.inj (found₁.symm.trans found)
      rw [through.depth]
      refine ih (Nat.le_of_succ_le inside) ?_ before
      intro k ge lt
      exact deep k ge (Nat.lt_succ_of_lt lt)

/-- The step that gets below a call is its return. -/
lemma History.returns (run : History p entry args n s) (le : i ≤ j) (inside : j < n)
    (call : (step p (s i)).event? = some .call)
    (deep : ∀ k, i < k → k ≤ j → (s i).stack.length < (s k).stack.length)
    (back : (s (j + 1)).stack.length ≤ (s i).stack.length) :
    ∃ frame : Frame, frame.env = (s i).env ∧ frame.dest = (s i).pc.id.register? ∧
      (s i).pc.next? p = some frame.ret ∧ (step p (s j)).event? = some .ret ∧
      (s (j + 1)).pc = frame.ret ∧ (s (j + 1)).stack = (s i).stack ∧
      frame.resume (returned? p (s j)) = some (s (j + 1)).env := by
  have entered := run.effect (Nat.lt_of_le_of_lt le inside)
  rw [call] at entered
  obtain ⟨next, succ, pushed, _⟩ := entered.of_call
  have later : i < j := by
    rcases Nat.lt_or_eq_of_le le with lt | rfl
    · exact lt
    · rw [pushed] at back
      exact absurd back (Nat.not_succ_le_self _)
  -- the frame of the call lies at the bottom of the stack up to the last step
  have bottom : ⟨(s i).env, next, (s i).pc.id.register?⟩ :: (s i).stack <:+ (s j).stack := by
    apply run.suffix later (Nat.le_of_lt inside)
    · exact ⟨[], pushed.symm⟩
    · intro k ge le'
      exact deep k ge le'
  have eff := run.effect inside
  have depth := eff.depth
  have above := deep j later (Nat.le_refl j)
  have ret : (step p (s j)).event? = some .ret := by
    by_contra other
    rw [if_neg other] at depth
    omega
  -- and on top of it, since one step gets below
  have top : (s j).stack = ⟨(s i).env, next, (s i).pc.id.register?⟩ :: (s i).stack := by
    symm
    apply bottom.eq_of_length
    rw [ret, if_pos rfl, if_neg nofun] at depth
    rw [List.length_cons]
    omega
  rw [ret] at eff
  obtain ⟨pc, stack, env⟩ := eff.of_ret top
  exact ⟨_, rfl, rfl, succ, ret, pc, stack, env⟩

/-- A call that has returned leaves the state of older cells alone, and no newer cell live. -/
lemma History.cells_of_call (run : History p entry args n s) (le : i ≤ j) (inside : j < n)
    (call : (step p (s i)).event? = some .call)
    (deep : ∀ k, i < k → k ≤ j → (s i).stack.length < (s k).stack.length)
    (back : (s (j + 1)).stack.length = (s i).stack.length) :
    (∀ (a : Nat) c, (s i).memory[a]? = some c →
      ∃ c', (s (j + 1)).memory[a]? = some c' ∧ c'.depth = c.depth ∧ c'.live = c.live) ∧
    ∀ (a : Nat) c, (s i).memory.length ≤ a → (s (j + 1)).memory[a]? = some c → c.live = false := by
  have start : i < n := Nat.lt_of_le_of_lt le inside
  constructor
  · intro a c found
    obtain ⟨c', found', depth, live⟩ := run.cell (Nat.le_succ_of_le le) inside found
    refine ⟨c', found', depth, Bool.eq_iff_iff.2 (live.trans ?_)⟩
    refine and_iff_left_of_imp fun alive k lt le' => ?_
    have owned := run.owned (Nat.le_of_lt start) a c found alive
    rcases Nat.le_succ_iff.1 le' with le' | rfl
    · have above := deep k lt le'
      omega
    · rw [back]
      exact owned
  · intro a c new found
    have entered := run.effect start
    rw [call] at entered
    obtain ⟨_, _, _, memory⟩ := entered.of_call
    rw [← memory] at new
    have depth : (s i).stack.length < c.depth := by
      refine run.depth_of_new (Nat.succ_le_succ le) inside ?_ new found
      intro k ge lt
      exact deep k ge (Nat.le_of_lt_succ lt)
    -- a live cell would belong to a depth that is gone
    cases alive : c.live with
    | false => rfl
    | true =>
      have owned := run.owned (show j + 1 ≤ n from inside) a c found alive
      omega

end

/-- Calls and returns match. The first step after a call that leads to a stack no deeper than before
it is a return. It restores the stack and the registers of the caller, but for the result of the
call, and goes on behind the call. Cells that existed before the call keep their depths and are as
live as they were, and those allocated since are dead. The depth of the stack is always the number
of calls less the number of returns. -/
theorem calls_match_returns {p : Program} {entry : Key} {args : List Value} {n : Nat}
    {s : Nat → State} (run : History p entry args n s) :
    (∀ i j, i ≤ j → j < n → (step p (s i)).event? = some .call →
      (∀ k, i < k → k ≤ j → (s i).stack.length < (s k).stack.length) →
      (s (j + 1)).stack.length ≤ (s i).stack.length →
      (step p (s j)).event? = some .ret ∧ (s (j + 1)).stack = (s i).stack ∧
      (s i).pc.next? p = some (s (j + 1)).pc ∧
      (∀ k, (s i).pc.id = .result k →
        ∃ v, returned? p (s j) = some v ∧ (s (j + 1)).env = (s i).env.insert k v) ∧
      (∀ m, (s i).pc.id = .void m → (s (j + 1)).env = (s i).env) ∧
      (∀ (a : Nat) c, (s i).memory[a]? = some c →
        ∃ c', (s (j + 1)).memory[a]? = some c' ∧ c'.depth = c.depth ∧ c'.live = c.live) ∧
      ∀ (a : Nat) c, (s i).memory.length ≤ a → (s (j + 1)).memory[a]? = some c →
        c.live = false) ∧
    ∀ i ≤ n, ((s i).stack.length : Int) = events p s .call i - events p s .ret i := by
  constructor
  · intro i j le inside call deep back
    obtain ⟨⟨env, next, dest⟩, rfl, rfl, succ, ret, pc, stack, resumed⟩ :=
      run.returns le inside call deep back
    obtain ⟨old, new⟩ := run.cells_of_call le inside call deep (congrArg List.length stack)
    refine ⟨ret, stack, ?_, ?_, ?_, old, new⟩
    · rw [pc]
      exact succ
    · intro k id
      rw [id] at resumed
      exact Frame.resume_some resumed
    · intro m id
      rw [id] at resumed
      exact Frame.resume_none resumed
  · intro i le
    have depth := run.depth_eq le
    omega

/-- A function that calls itself once, with a cell for each activation and a result. -/
def nestedCalls : Program :=
  ⟨[.define ⟨.named "main", ⟨.void, []⟩, [],
      [⟨.anon 0,
        [(.result (.anon 1), .instr (.alloca .i64)),
          (.result (.anon 2),
            .instr (.call .i64 (.global (.named "f")) [(.i1, .bool true)]))],
        (.void 1, .term .retVoid)⟩]⟩,
    .define ⟨.named "f", ⟨.i64, [.i1]⟩, [.named "again"],
      [⟨.anon 0,
        [(.result (.anon 1), .instr (.alloca .i64))],
        (.void 1, .term (.condBr (.register (.named "again")) (.anon 2) (.anon 3)))⟩,
        ⟨.anon 2,
          [(.void 2, .instr (.call .i64 (.global (.named "f")) [(.i1, .bool false)]))],
          (.void 3, .term (.br (.anon 3)))⟩,
        ⟨.anon 3, [], (.void 4, .term (.ret .i64 (.int 5)))⟩]⟩]⟩

/-- The outer of two nested calls returns in the tenth step, with the stack of its caller and the result
in its register; the cells of both activations are then dead. -/
theorem nestedCalls_match :
    ∃ s, History nestedCalls (.named "main") [] 10 s ∧
      (step nestedCalls (s 1)).event? = some .call ∧
      (∀ k, 1 < k → k ≤ 9 → (s 1).stack.length < (s k).stack.length) ∧
      (s 10).stack.length ≤ (s 1).stack.length ∧
      (step nestedCalls (s 9)).event? = some .ret ∧ (s 10).stack = (s 1).stack ∧
      (∃ v, returned? nestedCalls (s 9) = some v ∧ (s 10).env = (s 1).env.insert (.anon 2) v) ∧
      (∀ (a : Nat) c, (s 1).memory.length ≤ a → (s 10).memory[a]? = some c → c.live = false) ∧
      ((s 10).stack.length : Int) = events nestedCalls s .call 10 - events nestedCalls s .ret 10 := by
  let s₀ : State := ⟨⟨.named "main", .anon 0, .result (.anon 1)⟩, ∅, [], []⟩
  let s := stateAfter (fun s => (step nestedCalls s).next?) s₀
  have run : History nestedCalls (.named "main") [] 10 s := .of_stateAfter rfl (by decide +kernel)
  have call : (step nestedCalls (s 1)).event? = some .call := rfl
  have deep : ∀ k, 1 < k → k ≤ 9 → (s 1).stack.length < (s k).stack.length := by
    have all : ∀ k < 10, 1 < k → (s 1).stack.length < (s k).stack.length := by decide +kernel
    intro k after le
    exact all k (Nat.lt_succ_of_le le) after
  have back : (s 10).stack.length ≤ (s 1).stack.length := by decide +kernel
  obtain ⟨returns, depth⟩ := calls_match_returns run
  obtain ⟨ret, stack, _, env, _, _, new⟩ := returns 1 9 (by decide) (by decide) call deep back
  exact ⟨_, run, call, deep, back, ret, stack, env _ rfl, new, depth 10 (by decide)⟩

end ImpSSA.Machine
