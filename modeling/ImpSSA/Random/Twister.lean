import ImpSSA.Random.Source

/-!
# The Mersenne twister

The generator MT19937: 624 words of state, renewed together and tempered one by one. It is seeded
from the words of an integer's absolute value, the least significant first.
-/

namespace ImpSSA

/-- The words of state, and how many of them have been used. -/
structure Twister where
  words : Array UInt32
  index : Nat

namespace Twister

/-- The number of words. -/
def size : Nat := 624

/-- A word mixed with its own upper bits. -/
def fold (w : UInt32) : UInt32 := w ^^^ (w >>> 30)

/-- The words grown from one. -/
def ofWord (seed : UInt32) : Array UInt32 :=
  (List.range (size - 1)).foldl
    (fun ws i => ws.push (1812433253 * fold (ws.getD i 0) + UInt32.ofNat (i + 1))) #[seed]

/-- One pass over the words: `count` times the word at a place is replaced, going round from the
last place to the second one. The result has the place reached. -/
def mix (f : UInt32 → UInt32 → Nat → Nat → UInt32) (count start : Nat) (ws : Array UInt32) :
    Array UInt32 × Nat :=
  (List.range count).foldl
    (fun (ws, i) k =>
      let ws := ws.setIfInBounds i (f (ws.getD i 0) (fold (ws.getD (i - 1) 0)) i k)
      if i + 1 < size then (ws, i + 1) else (ws.setIfInBounds 0 (ws.getD (size - 1) 0), 1))
    (ws, start)

/-- The state seeded by a list of words. -/
def ofWords (key : Array UInt32) : Twister :=
  let add (w prev : UInt32) (_ k : Nat) : UInt32 :=
    let j := k % key.size
    (w ^^^ (prev * 1664525)) + key.getD j 0 + UInt32.ofNat j
  let subtract (w prev : UInt32) (i _ : Nat) : UInt32 :=
    (w ^^^ (prev * 1566083941)) - UInt32.ofNat i
  let (ws, i) := mix add (max size key.size) 1 (ofWord 19650218)
  let (ws, _) := mix subtract (size - 1) i ws
  ⟨ws.setIfInBounds 0 0x80000000, size⟩

/-- The 32-bit words of a number, the least significant first; at least one. -/
def wordsOf (n : Nat) : Array UInt32 :=
  if n < 0x100000000 then #[UInt32.ofNat n]
  else #[UInt32.ofNat (n % 0x100000000)] ++ wordsOf (n / 0x100000000)

/-- The state seeded by an integer. -/
def seed (n : Int) : Twister := ofWords (wordsOf n.natAbs)

/-- Renews all words, each from itself and two later ones. -/
def renew (ws : Array UInt32) : Array UInt32 :=
  (List.range size).foldl
    (fun ws i =>
      let y := (ws.getD i 0 &&& 0x80000000) ||| (ws.getD ((i + 1) % size) 0 &&& 0x7fffffff)
      let odd : UInt32 := if y &&& 1 = 1 then 0x9908b0df else 0
      ws.setIfInBounds i (ws.getD ((i + 397) % size) 0 ^^^ (y >>> 1) ^^^ odd))
    ws

/-- Spreads the bits of a word. -/
def temper (w : UInt32) : UInt32 :=
  let w := w ^^^ (w >>> 11)
  let w := w ^^^ ((w <<< 7) &&& 0x9d2c5680)
  let w := w ^^^ ((w <<< 15) &&& 0xefc60000)
  w ^^^ (w >>> 18)

/-- The next word. -/
def next (t : Twister) : UInt32 × Twister :=
  let t := if t.index < size then t else ⟨renew t.words, 0⟩
  (temper (t.words.getD t.index 0), { t with index := t.index + 1 })

/-- The next `k` bits as a number: whole words from the least significant one up, and of the last
word its upper bits. -/
def bits (k : Nat) (t : Twister) : Nat × Twister :=
  let (w, t) := t.next
  if k ≤ 32 then (w.toNat >>> (32 - k), t)
  else
    let (high, t) := bits (k - 32) t
    (w.toNat + high <<< 32, t)

/-- Draws as many bits as `n` has until they are below `n`; each draw is with a chance of at least
one half, and after `tries` of them the last one is reduced. -/
def below (n : Nat) : (tries : Nat) → Twister → Nat × Twister
  | 0, t =>
    let (m, t) := t.bits (n.log2 + 1)
    (m % n, t)
  | tries + 1, t =>
    let (m, t) := t.bits (n.log2 + 1)
    if m < n then (m, t) else below n tries t

instance : RandomSource Twister where
  chance percent t :=
    let (a, t) := t.bits 27
    let (b, t) := t.bits 26
    (decide ((a <<< 26 + b) * 100 < percent <<< 53), t)
  upTo n t :=
    let (m, t) := t.below (n + 1) 1000
    (⟨m % (n + 1), Nat.mod_lt m n.succ_pos⟩, t)

end Twister

end ImpSSA
