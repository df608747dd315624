import ImpSSA.Proofs.Lists
import ImpSSA.Proofs.CodeGen.Compiled
import ImpSSA.Proofs.Simulation.Expression

/-!
# The memory of compiled code

A `Layout` is a compiled function with its stored names and what stands behind the code of the
command. `Holds L σ s` says that memory is exactly the values of the names, the last name first, with
pointers to them in the registers of the context. Storage code establishes it for the empty store
(`Layout.start`), expression code keeps it (`Holds.frame`) and a store instruction follows an
assignment (`Holds.assign`).
-/

namespace ImpSSA.Machine
open IR

/-- A function whose memory is the values of distinct names. -/
structure Layout where
  program : Program
  fn : Key
  /-- The whole stream of the function. -/
  whole : List Elem
  names : List String
  /-- What stands behind the code of the command. -/
  last : List Elem
  image : Image program fn whole
  distinct : names.Nodup
  ends : region last ≠ []

/-- Pointers to the cells of the names. -/
def Layout.context (L : Layout) : Context := storageContext 1 L.names

/-- The first number behind those of the context. -/
def Layout.first (L : Layout) : Nat := 1 + L.names.length

/-- Memory is the values of the names, and the context points to them. -/
structure Holds (L : Layout) (σ : Store) (s : State) : Prop where
  stack : s.stack = []
  memory : s.memory = L.names.reverse.map fun x => ⟨.int (σ.value x), 0, true⟩
  pointers : ∀ x ptr, L.context.get? x = some ptr →
    ∃ a : Nat, Leaves s.env L.first ptr (.addr a) ∧ L.names.reverse[a]? = some x

/-- The address of a live cell can be followed. -/
lemma deref_addr {memory : List Cell} {a : Nat} {cell : Cell} (found : memory[a]? = some cell)
    (live : cell.live = true) : deref memory (.addr a) = .ok (a, cell) := by
  rw [deref, if_neg (by omega)]
  simp only [Int.toNat_natCast, found, live, if_true]
  rfl

namespace Holds
variable {L : Layout} {σ : Store} {s s' : State} {n n' : Nat}

/-- A variable's cell holds its value. -/
lemma cell {x} {a : Nat} (h : Holds L σ s) (place : L.names.reverse[a]? = some x) :
    s.memory[a]? = some ⟨.int (σ.value x), 0, true⟩ := by
  rw [h.memory, List.getElem?_map, place]
  rfl

/-- Registers behind those of the context do not matter. -/
lemma frame (h : Holds L σ s) (ext : Extends n n' s s') (le : L.first ≤ n) : Holds L σ s' where
  stack := ext.stack.trans h.stack
  memory := ext.memory.trans h.memory
  pointers x ptr found := by
    obtain ⟨a, leaves, place⟩ := h.pointers x ptr found
    exact ⟨a, leaves.frame ext le, place⟩

/-- Where the counter is does not matter for the cells. -/
lemma goto (h : Holds L σ s) (pc : Pc) : Holds L σ { s with pc } :=
  ⟨h.stack, h.memory, h.pointers⟩

/-- All variables can be read. -/
lemma reads (h : Holds L σ s) (le : L.first ≤ n) (xs : List String) :
    Reads L.context σ n s xs := by
  intro x _ ptr found
  obtain ⟨a, leaves, place⟩ := h.pointers x ptr found
  exact ⟨_, _, _, leaves.mono le, deref_addr (h.cell place) rfl, rfl⟩

/-- A store through the pointer of a variable is an assignment. -/
lemma assign {x ptr} (h : Holds L σ s) (found : L.context.get? x = some ptr) (m : Int) :
    ∃ v a cell, Leaves s.env L.first ptr v ∧ deref s.memory v = .ok (a, cell) ∧
      ∀ pc, Holds L (σ.insert x m)
        { s with pc, memory := s.memory.set a { cell with value := .int m } } := by
  obtain ⟨a, leaves, place⟩ := h.pointers x ptr found
  refine ⟨_, _, _, leaves, deref_addr (h.cell place) rfl, fun pc => ⟨h.stack, ?_, h.pointers⟩⟩
  have written : (⟨.int m, 0, true⟩ : Cell) = ⟨.int (Store.value (σ.insert x m) x), 0, true⟩ := by
    rw [value_insert, if_pos rfl]
  simp only [h.memory, written]
  -- names are distinct, so no other name has its value in the cell that is written
  refine set_map (g := fun y => (⟨.int (Store.value (σ.insert x m) y), 0, true⟩ : Cell))
    (List.nodup_reverse.2 L.distinct) place ?_
  intro y ne
  rw [value_insert, if_neg ne]

/-- The return answers with the values of the names. -/
lemma terminates {i} (h : Holds L σ s) (left : At L.program s.pc [(i, .term .retVoid)]) :
    step L.program s = .terminated (L.names.reverse.map fun x => .int (σ.value x)) none := by
  rw [left.term (.retVoid (.outermost h.stack)), State.snapshot, h.memory, List.map_map]
  rfl

end Holds

/-- One name of the storage code gets a zeroed cell at the end of memory. -/
lemma cell_exec {p : Program} {k : Key} {i : InstrId} {s : State} {rest : List (InstrId × Item)}
    (left : At p s.pc ((.result k, .instr (.alloca .i64)) ::
      (i, .instr (.store .i64 (.int 0) (.register k))) :: rest))
    (more : rest ≠ []) (stack : s.stack = []) :
    ∃ pc, At p pc rest ∧ pc.fn = s.pc.fn ∧ pc.block = s.pc.block ∧
      Steps p s 2 [] ⟨pc, s.env.insert k (.addr s.memory.length), [],
        s.memory ++ [⟨.int 0, 0, true⟩]⟩ := by
  obtain ⟨_, _, id⟩ := left.fetch
  obtain ⟨pc₁, fn₁, block₁, left₁, exec₁⟩ := left.instr (by simp)
  let s₁ : State := ⟨pc₁, s.env.insert k (.addr s.memory.length), [],
    s.memory ++ [⟨.undef, 0, true⟩]⟩
  have allocated : step p s = .stepped s₁ .step := by
    rw [exec₁ _ .alloca, id, stack]
    rfl
  obtain ⟨pc₂, fn₂, block₂, left₂, exec₂⟩ := At.instr (s := s₁) left₁ more
  have pointer : operand p s₁.env (.register k) = .ok (.addr s.memory.length) := by
    simp [operand, atom, s₁, Table.get?_insert]
    rfl
  have cell : deref s₁.memory (.addr s.memory.length) = .ok (_, ⟨.undef, 0, true⟩) :=
    deref_addr (by simp [s₁]) rfl
  have stored : step p s₁ =
      .stepped ⟨pc₂, s₁.env, [], s.memory ++ [⟨.int 0, 0, true⟩]⟩ .step := by
    rw [exec₂ _ (.store rfl pointer cell)]
    simp [s₁]
  exact ⟨pc₂, left₂, fn₂.trans fn₁, block₂.trans block₁, .stepped allocated (.one stored)⟩

/-- Storage code allocates zeroed cells, the last name first. -/
lemma storage_exec {p : Program} {n v : Nat} {xs : List String} {s : State}
    {rest : List (InstrId × Item)} (left : At p s.pc (storageCode n v xs ++ rest))
    (more : rest ≠ []) (stack : s.stack = []) (memory : s.memory = []) :
    ∃ s', Steps p s (2 * xs.length) [] s' ∧ At p s'.pc rest ∧ s'.pc.fn = s.pc.fn ∧
      s'.pc.block = s.pc.block ∧ s'.stack = [] ∧
      s'.memory = List.replicate xs.length ⟨.int 0, 0, true⟩ ∧
      ∀ i : Nat, i < xs.length → s'.env.get? (.anon (n + i : Nat)) = some (.addr i) := by
  induction xs generalizing rest with
  | nil => exact ⟨s, .refl, left, rfl, rfl, stack, memory, fun i lt => by cases lt⟩
  | cons x xs ih =>
    -- the code of the other names stands in front, so this name gets the last cell
    rw [storageCode, List.append_assoc] at left
    obtain ⟨s₁, steps₁, left₁, fn₁, block₁, stack₁, memory₁, env₁⟩ := ih left (by simp)
    obtain ⟨pc, left₂, fn₂, block₂, steps₂⟩ := cell_exec left₁ more stack₁
    have length : s₁.memory.length = xs.length := by rw [memory₁, List.length_replicate]
    refine ⟨_, steps₁.trans_nil steps₂, left₂, fn₂.trans fn₁, block₂.trans block₁, rfl, ?_, ?_⟩
    · simp only [memory₁, List.length_cons, List.replicate_succ']
    · intro i lt
      rw [Table.get?_insert, length]
      split
      · rename_i eq
        have same : i = xs.length := by
          injection eq with eq
          omega
        rw [same]
      · rename_i ne
        have below : i < xs.length := by
          rcases Nat.lt_succ_iff_lt_or_eq.1 lt with below | eq
          · exact below
          · exact absurd (by rw [eq]) ne
        exact env₁ i below

/-- A call runs the storage code, which leaves the empty store. -/
lemma Layout.start {L : Layout} {d : Definition} {es : List Elem}
    (whole : L.whole = mark 0 :: (instrs (storageCode 1 1 L.names) ++ es)) (more : region es ≠ [])
    (defn : L.program.definition? L.fn = some d) (params : d.params = []) :
    ∃ s₀ s, init L.program L.fn [] = .ok s₀ ∧ Steps L.program s₀ (2 * L.names.length) [] s ∧
      s.pc.fn = L.fn ∧ Stands L.whole s.pc es ∧ Holds L ∅ s := by
  have image := L.image
  rw [whole] at image ⊢
  obtain ⟨pc, starts, here, stands⟩ := image.start defn
  have left := stands.at image here
  rw [region_instrs] at left
  obtain ⟨s, steps, left', fn, block, stack, memory, env⟩ := storage_exec
    (s := ⟨pc, ∅, [], []⟩) left more rfl rfl
  refine ⟨_, s, ?_, steps, fn.trans here, stands.advance block left', stack, ?_, ?_⟩
  · rw [init, defn]
    simp only [params, starts]
    rfl
  · rw [memory, ← List.length_reverse, ← List.map_const']
    rfl
  · intro x ptr found
    obtain ⟨ys, zs, names, rfl⟩ := of_get?_storageContext found
    have short : zs.length < L.names.length := by
      rw [names]
      simp
      omega
    refine ⟨zs.length, .register ?_ (env _ short), ?_⟩
    · simp only [Layout.first]
      omega
    · rw [names]
      simp

end ImpSSA.Machine
