/-!
# Text in base 64

Writing uses the alphabet that is safe in addresses, with padding. Reading accepts both alphabets
and is lenient: foreign characters are skipped, and padding counts only where it completes a group.
What has been written is read back.
-/

namespace RecordApi.Text.Base64

/-- The character for a value below 64. -/
def charOf (value : Nat) : Char :=
  if value < 26 then Char.ofNat (value + 65)
  else if value < 52 then Char.ofNat (value - 26 + 97)
  else if value < 62 then Char.ofNat (value - 52 + 48)
  else if value = 62 then '-'
  else '_'

/-- The value of a character of either alphabet. -/
def valueOf? (c : Char) : Option Nat :=
  if 'A' ≤ c && c ≤ 'Z' then some (c.toNat - 65)
  else if 'a' ≤ c && c ≤ 'z' then some (c.toNat - 97 + 26)
  else if '0' ≤ c && c ≤ '9' then some (c.toNat - 48 + 52)
  else if c = '-' || c = '+' then some 62
  else if c = '_' || c = '/' then some 63
  else none

/-- Writes bytes in groups of four characters. -/
def encode : List Nat → List Char
  | [] => []
  | [a] => [charOf (a / 4), charOf (a % 4 * 16), '=', '=']
  | [a, b] => [charOf (a / 4), charOf (a % 4 * 16 + b / 16), charOf (b % 16 * 4), '=']
  | a :: b :: c :: rest =>
    charOf (a / 4) :: charOf (a % 4 * 16 + b / 16) :: charOf (b % 16 * 4 + c / 64) ::
      charOf (c % 64) :: encode rest

/-- How far a group of four has been read: how many of its characters, and the bits that are not
yet part of a byte. -/
inductive Group where
  | empty
  | one (bits : Nat)
  | two (bits : Nat)
  | three (bits : Nat)

/-- Takes one more character value into a group: the byte it completes and the next state. -/
def Group.take : Group → Nat → Option Nat × Group
  | .empty, v => (none, .one v)
  | .one bits, v => (some (bits * 4 + v / 16), .two (v % 16))
  | .two bits, v => (some (bits * 16 + v / 4), .three (v % 4))
  | .three bits, v => (some (bits * 64 + v), .empty)

/-- How many pads in a row complete the group, if any do. -/
def Group.padsNeeded : Group → Option Nat
  | .two _ => some 2
  | .three _ => some 1
  | _ => none

/-- Reads on from inside a group, with so many pads just before. -/
def decodeFrom : Group → Nat → List Char → Option (List Nat)
  | .empty, _, [] => some []
  | _, _, [] => none
  | group, pads, '=' :: cs =>
    match group.padsNeeded with
    | none => decodeFrom group pads cs
    | some needed => if needed ≤ pads + 1 then some [] else decodeFrom group (pads + 1) cs
  | group, pads, c :: cs =>
    match valueOf? c with
    | none => decodeFrom group pads cs
    | some v =>
      match group.take v with
      | (none, next) => decodeFrom next 0 cs
      | (some byte, next) => (decodeFrom next 0 cs).map (byte :: ·)

/-- The bytes written by a text, unless it ends inside a group. -/
def decode (cs : List Char) : Option (List Nat) :=
  decodeFrom .empty 0 cs

theorem charOf_ne_pad : ∀ v < 64, charOf v ≠ '=' := by
  decide

theorem valueOf?_charOf : ∀ v < 64, valueOf? (charOf v) = some v := by
  decide

theorem decodeFrom_charOf (group : Group) (pads v : Nat) (cs : List Char) (hv : v < 64) :
    decodeFrom group pads (charOf v :: cs) =
      match group.take v with
      | (none, next) => decodeFrom next 0 cs
      | (some byte, next) => (decodeFrom next 0 cs).map (byte :: ·) := by
  rw [decodeFrom.eq_4 _ _ _ _ (charOf_ne_pad v hv)]
  simp only [valueOf?_charOf v hv]

theorem decode_encode (bytes : List Nat) (h : ∀ b ∈ bytes, b < 256) :
    decode (encode bytes) = some bytes := by
  unfold decode
  fun_induction encode bytes with
  | case1 => rfl
  | case2 a =>
    have ha : a < 256 := h a (by simp)
    rw [decodeFrom_charOf _ _ _ _ (by omega)]
    simp only [Group.take]
    rw [decodeFrom_charOf _ _ _ _ (by omega)]
    simp [Group.take, decodeFrom, Group.padsNeeded]
    omega
  | case3 a b =>
    have ha : a < 256 := h a (by simp)
    have hb : b < 256 := h b (by simp)
    rw [decodeFrom_charOf _ _ _ _ (by omega)]
    simp only [Group.take]
    rw [decodeFrom_charOf _ _ _ _ (by omega)]
    simp only [Group.take]
    rw [decodeFrom_charOf _ _ _ _ (by omega)]
    simp [Group.take, decodeFrom, Group.padsNeeded]
    omega
  | case4 a b c rest ih =>
    have ha : a < 256 := h a (by simp)
    have hb : b < 256 := h b (by simp)
    have hc : c < 256 := h c (by simp)
    rw [decodeFrom_charOf _ _ _ _ (by omega)]
    simp only [Group.take]
    rw [decodeFrom_charOf _ _ _ _ (by omega)]
    simp only [Group.take]
    rw [decodeFrom_charOf _ _ _ _ (by omega)]
    simp only [Group.take]
    rw [decodeFrom_charOf _ _ _ _ (by omega)]
    simp only [Group.take]
    rw [ih fun x hx => h x (by simp [hx])]
    simp
    omega

end RecordApi.Text.Base64
