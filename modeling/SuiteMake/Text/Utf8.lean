import SuiteMake.Text.Basic

/-!
# UTF-8

Encoding of text, and one decoder that reads any bytes: it gives a character for each well
formed sequence and `none` for each maximal ill-formed part. Strict and lossy reading are two
views of its answer. Main statement: encoded text is read back.
-/

namespace SuiteMake

/-- The content of a file, or a name that need not be text. -/
abbrev Bytes := List UInt8

namespace Utf8

/-- A byte after the first of a sequence: six bits of the code point. -/
def tail (n : Nat) : UInt8 := UInt8.ofNat (0x80 + n % 64)

/-- One to four bytes, as few as the code point allows. -/
def encodeChar (c : Char) : Bytes :=
  let n := c.toNat
  if n < 0x80 then [UInt8.ofNat n]
  else if n < 0x800 then [UInt8.ofNat (0xC0 + n / 64), tail n]
  else if n < 0x10000 then [UInt8.ofNat (0xE0 + n / 4096), tail (n / 64), tail n]
  else [UInt8.ofNat (0xF0 + n / 262144), tail (n / 4096), tail (n / 64), tail n]

def encode (t : Text) : Bytes := t.flatMap encodeChar

/-- Where the decoder stands: between characters, or inside a sequence of which the next byte
must lie between `low` and `high` and `more` further bytes follow it. -/
inductive State
  | start
  | inside (more low high value : Nat)

/-- What a byte does between characters: what it completes, and where the decoder stands then. -/
def lead (b : Nat) : List (Option Char) × State :=
  if b < 0x80 then ([some (Char.ofNat b)], .start)
  else if b < 0xC2 then ([none], .start)
  else if b < 0xE0 then ([], .inside 0 0x80 0xBF (b - 0xC0))
  else if b = 0xE0 then ([], .inside 1 0xA0 0xBF 0)
  else if b = 0xED then ([], .inside 1 0x80 0x9F 0xD)
  else if b < 0xF0 then ([], .inside 1 0x80 0xBF (b - 0xE0))
  else if b = 0xF0 then ([], .inside 2 0x90 0xBF 0)
  else if b < 0xF4 then ([], .inside 2 0x80 0xBF (b - 0xF0))
  else if b = 0xF4 then ([], .inside 2 0x80 0x8F 4)
  else ([none], .start)

/-- What a byte does. A byte that cannot continue a sequence ends it as ill-formed and is then
read afresh. -/
def step (s : State) (b : Nat) : List (Option Char) × State :=
  match s with
  | .start => lead b
  | .inside more low high value =>
    if low ≤ b ∧ b ≤ high then
      let value := value * 64 + (b - 0x80)
      match more with
      | 0 => ([some (Char.ofNat value)], .start)
      | more + 1 => ([], .inside more 0x80 0xBF value)
    else (none :: (lead b).1, (lead b).2)

/-- The characters of the bytes that follow, `none` standing for a maximal ill-formed part. -/
def decodeFrom : State → Bytes → List (Option Char)
  | .start, [] => []
  | .inside .., [] => [none]
  | s, b :: bs => (step s b.toNat).1 ++ decodeFrom (step s b.toNat).2 bs

def decode? (bs : Bytes) : Option Text := (decodeFrom .start bs).mapM id

/-- Any bytes as text, each maximal ill-formed part shown as U+FFFD. -/
def decodeLossy (bs : Bytes) : Text := (decodeFrom .start bs).map (·.getD '�')

theorem toNat_tail (n : Nat) : (tail n).toNat = 0x80 + n % 64 := by
  rw [tail, UInt8.toNat_ofNat', Nat.mod_eq_of_lt (by omega)]

theorem lead_two {b : Nat} (h : 0xC2 ≤ b) (h' : b < 0xE0) :
    lead b = ([], .inside 0 0x80 0xBF (b - 0xC0)) := by
  rw [lead, if_neg (by omega), if_neg (by omega), if_pos h']

theorem lead_three {b : Nat} (h : 0xE0 ≤ b) (h' : b < 0xF0) :
    lead b = ([], .inside 1 (if b = 0xE0 then 0xA0 else 0x80)
      (if b = 0xED then 0x9F else 0xBF) (b - 0xE0)) := by
  rw [lead, if_neg (by omega), if_neg (by omega), if_neg (by omega)]
  by_cases hlow : b = 0xE0
  · simp [hlow]
  · by_cases hhigh : b = 0xED
    · simp [hhigh]
    · rw [if_neg hlow, if_neg hhigh, if_pos h', if_neg hlow, if_neg hhigh]

theorem lead_four {b : Nat} (h : 0xF0 ≤ b) (h' : b ≤ 0xF4) :
    lead b = ([], .inside 2 (if b = 0xF0 then 0x90 else 0x80)
      (if b = 0xF4 then 0x8F else 0xBF) (b - 0xF0)) := by
  rw [lead, if_neg (by omega), if_neg (by omega), if_neg (by omega), if_neg (by omega),
    if_neg (by omega), if_neg (by omega)]
  by_cases hlow : b = 0xF0
  · simp [hlow]
  · by_cases hhigh : b = 0xF4
    · simp [hhigh]
    · rw [if_neg hlow, if_pos (by omega), if_neg hlow, if_neg hhigh]

theorem step_last {low high value b : Nat} (h : low ≤ b ∧ b ≤ high) :
    step (.inside 0 low high value) b =
      ([some (Char.ofNat (value * 64 + (b - 0x80)))], .start) := by
  rw [step, if_pos h]

theorem step_more {more low high value b : Nat} (h : low ≤ b ∧ b ≤ high) :
    step (.inside (more + 1) low high value) b =
      ([], .inside more 0x80 0xBF (value * 64 + (b - 0x80))) := by
  rw [step, if_pos h]

theorem decodeFrom_cons (s : State) (b : UInt8) (bs : Bytes) :
    decodeFrom s (b :: bs) = (step s b.toNat).1 ++ decodeFrom (step s b.toNat).2 bs := by
  cases s <;> rfl

/-- An encoded character is read back, whatever follows it. -/
theorem decodeFrom_encodeChar (c : Char) (bs : Bytes) :
    decodeFrom .start (encodeChar c ++ bs) = some c :: decodeFrom .start bs := by
  have hvalid : c.toNat < 0xD800 ∨ 0xDFFF < c.toNat ∧ c.toNat < 0x110000 := c.valid
  have hchar : Char.ofNat c.toNat = c := Char.ofNat_toNat c
  rw [encodeChar]
  generalize c.toNat = n at hvalid hchar ⊢
  by_cases h1 : n < 0x80
  · rw [if_pos h1, List.singleton_append, decodeFrom_cons, UInt8.toNat_ofNat',
      Nat.mod_eq_of_lt (by omega), step, lead, if_pos h1, hchar]
    rfl
  rw [if_neg h1]
  by_cases h2 : n < 0x800
  · rw [if_pos h2, List.cons_append, List.singleton_append, decodeFrom_cons, UInt8.toNat_ofNat',
      Nat.mod_eq_of_lt (by omega), step, lead_two (by omega) (by omega), decodeFrom_cons,
      toNat_tail, step_last (by omega)]
    rw [show (0xC0 + n / 64 - 0xC0) * 64 + (0x80 + n % 64 - 0x80) = n by omega, hchar]
    rfl
  rw [if_neg h2]
  by_cases h3 : n < 0x10000
  · rw [if_pos h3, List.cons_append, List.cons_append, List.singleton_append, decodeFrom_cons,
      UInt8.toNat_ofNat', Nat.mod_eq_of_lt (by omega), step, lead_three (by omega) (by omega),
      decodeFrom_cons, toNat_tail, step_more (by split <;> split <;> omega), decodeFrom_cons,
      toNat_tail, step_last (by omega)]
    rw [show ((0xE0 + n / 4096 - 0xE0) * 64 + (0x80 + n / 64 % 64 - 0x80)) * 64 +
      (0x80 + n % 64 - 0x80) = n by omega, hchar]
    rfl
  · rw [if_neg h3, List.cons_append, List.cons_append, List.cons_append, List.singleton_append,
      decodeFrom_cons, UInt8.toNat_ofNat', Nat.mod_eq_of_lt (by omega), step,
      lead_four (by omega) (by omega), decodeFrom_cons, toNat_tail,
      step_more (by split <;> split <;> omega), decodeFrom_cons, toNat_tail, step_more (by omega),
      decodeFrom_cons, toNat_tail, step_last (by omega)]
    rw [show (((0xF0 + n / 262144 - 0xF0) * 64 + (0x80 + n / 4096 % 64 - 0x80)) * 64 +
      (0x80 + n / 64 % 64 - 0x80)) * 64 + (0x80 + n % 64 - 0x80) = n by omega, hchar]
    rfl

theorem decodeFrom_encode (t : Text) : decodeFrom .start (encode t) = t.map some := by
  induction t with
  | nil => rfl
  | cons c t ih =>
    rw [encode, List.flatMap_cons, decodeFrom_encodeChar, List.map_cons]
    exact congrArg _ ih

theorem decode?_encode (t : Text) : decode? (encode t) = some t := by
  rw [decode?, decodeFrom_encode]
  induction t with
  | nil => rfl
  | cons c t ih => simp_all

end Utf8
end SuiteMake
