import Mathlib.Tactic.SplitIfs
import RazorLayout.Text.Encoding

/-!
# Bytes that are read are written again

Reading accepts exactly one byte sequence for each character: overlong forms, surrogates and code
points behind the last one are refused by the range of the second byte. So the UTF-8 form of a text
that was read is the bytes it was read from, and every text is read from its form.

## Main results

* `encode_of_decode`: the bytes of a text that was read
* `decode_encode`: the text of bytes that were written
-/

namespace RazorLayout.Text

/-- The character of a code point that is one. -/
theorem toNat_ofNat (code : Nat) (h : code < 0xD800 ∨ 0xDFFF < code ∧ code < 0x110000) :
    (Char.ofNat code).val.toNat = code := by
  have valid : code.isValidChar := h
  rw [Char.ofNat, dif_pos valid]
  rfl

/-- The bytes behind the second one, as numbers. -/
theorem mayFollow_later {lead b : UInt8} {place : Nat} (hplace : place ≠ 1)
    (h : mayFollow lead place b = true) : 0x80 ≤ b.toNat ∧ b.toNat ≤ 0xBF := by
  simpa [mayFollow, hplace, isContinuation, UInt8.le_iff_toNat_le] using h

/-- The lead bytes and the lengths of their sequences, as numbers. -/
theorem sequenceLength?_eq_some {lead : UInt8} {length : Nat}
    (h : sequenceLength? lead = some length) :
    (length = 1 ∧ lead.toNat < 0x80) ∨ (length = 2 ∧ 0xC2 ≤ lead.toNat ∧ lead.toNat ≤ 0xDF) ∨
      (length = 3 ∧ 0xE0 ≤ lead.toNat ∧ lead.toNat ≤ 0xEF) ∨
      (length = 4 ∧ 0xF0 ≤ lead.toNat ∧ lead.toNat ≤ 0xF4) := by
  simp only [sequenceLength?, UInt8.lt_iff_toNat_lt, UInt8.le_iff_toNat_le, Bool.and_eq_true,
    decide_eq_true_eq] at h
  split at h
  · exact .inl ⟨by simpa using h.symm, by simpa⟩
  · split at h
    · exact .inr (.inl ⟨by simpa using h.symm, by simpa⟩)
    · split at h
      · exact .inr (.inr (.inl ⟨by simpa using h.symm, by simpa⟩))
      · split at h
        · exact .inr (.inr (.inr ⟨by simpa using h.symm, by simpa⟩))
        · simp at h

/-- The second byte, as a number: a continuation that makes no sequence overlong, no surrogate and
no code point behind the last one. -/
theorem mayFollow_second {lead b : UInt8} (h : mayFollow lead 1 b = true) :
    0x80 ≤ b.toNat ∧ b.toNat ≤ 0xBF ∧ (lead.toNat = 0xE0 → 0xA0 ≤ b.toNat) ∧
      (lead.toNat = 0xED → b.toNat ≤ 0x9F) ∧ (lead.toNat = 0xF0 → 0x90 ≤ b.toNat) ∧
      (lead.toNat = 0xF4 → b.toNat ≤ 0x8F) := by
  simp only [mayFollow, if_true, secondRange, UInt8.le_iff_toNat_le, Bool.and_eq_true,
    decide_eq_true_eq, ← UInt8.toNat_inj] at h
  split at h
  · simp_all; omega
  · split at h
    · simp_all; omega
    · split at h
      · simp_all; omega
      · split at h
        · simp_all; omega
        · simp_all

/-- One more byte of a sequence. -/
theorem sequenceTail_succ {lead : UInt8} {place left code result : Nat} {bs : List UInt8}
    (h : sequenceTail lead place (left + 1) code bs = .ok result) :
    ∃ b rest, bs = b :: rest ∧ mayFollow lead place b = true ∧
      sequenceTail lead (place + 1) left (code * 0x40 + b.toNat % 0x40) rest = .ok result := by
  cases bs with
  | nil => simp [sequenceTail] at h
  | cons b rest =>
    rw [sequenceTail] at h
    split at h
    · exact ⟨b, rest, rfl, ‹_›, h⟩
    · simp at h

theorem ofNat_eq_of_eq_toNat {n : Nat} {b : UInt8} (h : n = b.toNat) : UInt8.ofNat n = b := by
  rw [h, UInt8.ofNat_toNat]

/-- A sequence that is accepted is the form of its character. -/
theorem utf8EncodeChar_of_sequenceTail {lead : UInt8} {length code : Nat} {bs : List UInt8}
    (hlength : sequenceLength? lead = some length)
    (h : sequenceTail lead 1 (length - 1) (leadBits length lead) bs = .ok code) :
    lead :: bs = String.utf8EncodeChar (Char.ofNat code) ++ bs.drop (length - 1) := by
  have hlead := lead.toNat_lt
  rcases sequenceLength?_eq_some hlength with ⟨rfl, ha⟩ | ⟨rfl, ha⟩ | ⟨rfl, ha⟩ | ⟨rfl, ha⟩
  · obtain rfl : lead.toNat = code := by simpa [sequenceTail, leadBits] using h
    have value := toNat_ofNat lead.toNat (by omega)
    simp only [String.utf8EncodeChar, value, if_pos (show lead.toNat ≤ 127 by omega),
      UInt8.ofNat_toNat]
    rfl
  · obtain ⟨b, rest, rfl, hb, h⟩ := sequenceTail_succ h
    have := mayFollow_second hb
    obtain rfl : lead.toNat % 0x20 * 0x40 + b.toNat % 0x40 = code := by
      simpa [sequenceTail, leadBits] using h
    have value := toNat_ofNat (lead.toNat % 0x20 * 0x40 + b.toNat % 0x40) (by omega)
    simp only [String.utf8EncodeChar, value]
    rw [if_neg (by omega), if_pos (by omega), ofNat_eq_of_eq_toNat (b := lead) (by omega),
      ofNat_eq_of_eq_toNat (b := b) (by omega)]
    rfl
  · obtain ⟨b, rest, rfl, hb, h⟩ := sequenceTail_succ h
    obtain ⟨c, rest, rfl, hc, h⟩ := sequenceTail_succ h
    have := mayFollow_second hb
    have := mayFollow_later (by decide) hc
    obtain rfl : (lead.toNat % 0x10 * 0x40 + b.toNat % 0x40) * 0x40 + c.toNat % 0x40 = code := by
      simpa [sequenceTail, leadBits] using h
    have value := toNat_ofNat
      ((lead.toNat % 0x10 * 0x40 + b.toNat % 0x40) * 0x40 + c.toNat % 0x40) (by omega)
    simp only [String.utf8EncodeChar, value]
    rw [if_neg (by omega), if_neg (by omega), if_pos (by omega),
      ofNat_eq_of_eq_toNat (b := lead) (by omega), ofNat_eq_of_eq_toNat (b := b) (by omega),
      ofNat_eq_of_eq_toNat (b := c) (by omega)]
    rfl
  · obtain ⟨b, rest, rfl, hb, h⟩ := sequenceTail_succ h
    obtain ⟨c, rest, rfl, hc, h⟩ := sequenceTail_succ h
    obtain ⟨d, rest, rfl, hd, h⟩ := sequenceTail_succ h
    have := mayFollow_second hb
    have := mayFollow_later (by decide) hc
    have := mayFollow_later (by decide) hd
    obtain rfl : ((lead.toNat % 0x08 * 0x40 + b.toNat % 0x40) * 0x40 + c.toNat % 0x40) * 0x40
        + d.toNat % 0x40 = code := by
      simpa [sequenceTail, leadBits] using h
    have value := toNat_ofNat
      (((lead.toNat % 0x08 * 0x40 + b.toNat % 0x40) * 0x40 + c.toNat % 0x40) * 0x40
        + d.toNat % 0x40) (by omega)
    simp only [String.utf8EncodeChar, value]
    rw [if_neg (by omega), if_neg (by omega), if_neg (by omega),
      ofNat_eq_of_eq_toNat (b := lead) (by omega), ofNat_eq_of_eq_toNat (b := b) (by omega),
      ofNat_eq_of_eq_toNat (b := c) (by omega), ofNat_eq_of_eq_toNat (b := d) (by omega)]
    rfl

@[simp] theorem encode_append (s t : List Char) : encode (s ++ t) = encode s ++ encode t :=
  List.flatMap_append

@[simp] theorem encode_singleton (c : Char) : encode [c] = String.utf8EncodeChar c :=
  List.flatMap_singleton ..

/-- What has been read so far, and the bytes that are left. -/
theorem encode_of_decodeFrom {acc s : List Char} {skip index : Nat} {bytes : List UInt8}
    (h : decodeFrom acc skip index bytes = .ok s) :
    encode s = encode acc.reverse ++ bytes.drop skip := by
  fun_induction decodeFrom acc skip index bytes with
  | case1 =>
    obtain rfl : _ = s := by simpa using h
    simp
  | case2 _ _ _ _ _ ih => rw [ih h, List.drop_succ_cons]
  | case3 => simp at h
  | case4 => simp at h
  | case5 acc index b bs length hlength code hcode ih =>
    rw [ih h, List.drop_zero, utf8EncodeChar_of_sequenceTail hlength hcode]
    simp

/-- The bytes of a text that was read. -/
theorem encode_of_decode {bytes : List UInt8} {s : List Char} (h : decode bytes = .ok s) :
    encode s = bytes := by
  simpa [encode] using encode_of_decodeFrom h

/-! ### Texts that are written are read again -/

theorem mayFollow_of_later {lead b : UInt8} {place : Nat} (hplace : place ≠ 1)
    (h : 0x80 ≤ b.toNat ∧ b.toNat ≤ 0xBF) : mayFollow lead place b = true := by
  simpa [mayFollow, hplace, isContinuation, UInt8.le_iff_toNat_le] using h

theorem mayFollow_of_second {lead b : UInt8} (h : 0x80 ≤ b.toNat ∧ b.toNat ≤ 0xBF)
    (hE0 : lead.toNat = 0xE0 → 0xA0 ≤ b.toNat) (hED : lead.toNat = 0xED → b.toNat ≤ 0x9F)
    (hF0 : lead.toNat = 0xF0 → 0x90 ≤ b.toNat) (hF4 : lead.toNat = 0xF4 → b.toNat ≤ 0x8F) :
    mayFollow lead 1 b = true := by
  simp only [mayFollow, if_true, secondRange, UInt8.le_iff_toNat_le, Bool.and_eq_true,
    decide_eq_true_eq, ← UInt8.toNat_inj]
  split
  · simp_all
  · split
    · simp_all
    · split
      · simp_all
      · split
        · simp_all
        · simpa using h

/-- Bytes that are read as one code point, whatever follows them. -/
def IsSequence (code : Nat) (bytes : List UInt8) : Prop :=
  ∃ lead tail, bytes = lead :: tail ∧ sequenceLength? lead = some (tail.length + 1) ∧
    ∀ bs, sequenceTail lead 1 tail.length (leadBits (tail.length + 1) lead) (tail ++ bs) = .ok code

/-- The length that a lead byte gives, as numbers. -/
theorem sequenceLength?_eq (lead : UInt8) :
    sequenceLength? lead
      = if lead.toNat < 0x80 then some 1
        else if 0xC2 ≤ lead.toNat ∧ lead.toNat ≤ 0xDF then some 2
        else if 0xE0 ≤ lead.toNat ∧ lead.toNat ≤ 0xEF then some 3
        else if 0xF0 ≤ lead.toNat ∧ lead.toNat ≤ 0xF4 then some 4
        else none := by
  simp [sequenceLength?, UInt8.lt_iff_toNat_lt, UInt8.le_iff_toNat_le]

theorem toNat_ofNat_byte {n : Nat} (hn : n < 256) : (UInt8.ofNat n).toNat = n := by
  rw [UInt8.toNat_ofNat', Nat.mod_eq_of_lt hn]

/-- The last byte of a longer sequence, and the one before it, have the form of a continuation. -/
theorem mayFollow_low_bits (lead : UInt8) {place : Nat} (hplace : place ≠ 1) (n : Nat) :
    mayFollow lead place (.ofNat (n % 64 + 128)) = true := by
  apply mayFollow_of_later hplace
  rw [toNat_ofNat_byte (by omega)]
  omega

section Sequences

variable {v : Nat}

theorem isSequence_one (h : v ≤ 127) : IsSequence v [.ofNat v] := by
  refine ⟨_, _, rfl, ?_, fun bs => ?_⟩
  · rw [sequenceLength?_eq, toNat_ofNat_byte (by omega), if_pos (by omega)]
    rfl
  · simp [sequenceTail, leadBits, Nat.mod_eq_of_lt (show v < 256 by omega)]

theorem isSequence_two (h : 127 < v) (h' : v ≤ 2047) :
    IsSequence v [.ofNat (v / 64 % 32 + 192), .ofNat (v % 64 + 128)] := by
  have lead := toNat_ofNat_byte (show v / 64 % 32 + 192 < 256 by omega)
  have last := toNat_ofNat_byte (show v % 64 + 128 < 256 by omega)
  refine ⟨_, _, rfl, ?_, fun bs => ?_⟩
  · rw [sequenceLength?_eq, lead, if_neg (by omega), if_pos (by omega)]
    rfl
  · have second : mayFollow (.ofNat (v / 64 % 32 + 192)) 1 (.ofNat (v % 64 + 128)) = true := by
      apply mayFollow_of_second <;> simp only [lead, last] <;> omega
    simp only [List.length_singleton, List.singleton_append, sequenceTail, second, if_true,
      leadBits, lead, last]
    apply congrArg
    omega

theorem isSequence_three (h : 2047 < v) (h' : v ≤ 65535) (hvalid : v < 0xD800 ∨ 0xDFFF < v) :
    IsSequence v [.ofNat (v / 4096 % 16 + 224), .ofNat (v / 64 % 64 + 128),
      .ofNat (v % 64 + 128)] := by
  have lead := toNat_ofNat_byte (show v / 4096 % 16 + 224 < 256 by omega)
  have next := toNat_ofNat_byte (show v / 64 % 64 + 128 < 256 by omega)
  have last := toNat_ofNat_byte (show v % 64 + 128 < 256 by omega)
  refine ⟨_, _, rfl, ?_, fun bs => ?_⟩
  · rw [sequenceLength?_eq, lead, if_neg (by omega), if_neg (by omega), if_pos (by omega)]
    rfl
  · -- neither overlong nor a surrogate
    have second : mayFollow (.ofNat (v / 4096 % 16 + 224)) 1 (.ofNat (v / 64 % 64 + 128))
        = true := by
      apply mayFollow_of_second <;> simp only [lead, next] <;> omega
    simp only [List.length_cons, List.length_nil, List.cons_append, List.nil_append, sequenceTail,
      second, mayFollow_low_bits _ (show 1 + 1 ≠ 1 by decide), if_true, leadBits, lead, next, last]
    apply congrArg
    omega

theorem isSequence_four (h : 65535 < v) (h' : v < 0x110000) :
    IsSequence v [.ofNat (v / 262144 % 8 + 240), .ofNat (v / 4096 % 64 + 128),
      .ofNat (v / 64 % 64 + 128), .ofNat (v % 64 + 128)] := by
  have lead := toNat_ofNat_byte (show v / 262144 % 8 + 240 < 256 by omega)
  have next := toNat_ofNat_byte (show v / 4096 % 64 + 128 < 256 by omega)
  have third := toNat_ofNat_byte (show v / 64 % 64 + 128 < 256 by omega)
  have last := toNat_ofNat_byte (show v % 64 + 128 < 256 by omega)
  refine ⟨_, _, rfl, ?_, fun bs => ?_⟩
  · rw [sequenceLength?_eq, lead, if_neg (by omega), if_neg (by omega), if_neg (by omega),
      if_pos (by omega)]
    rfl
  · -- neither overlong nor behind the last code point
    have second : mayFollow (.ofNat (v / 262144 % 8 + 240)) 1 (.ofNat (v / 4096 % 64 + 128))
        = true := by
      apply mayFollow_of_second <;> simp only [lead, next] <;> omega
    simp only [List.length_cons, List.length_nil, List.cons_append, List.nil_append, sequenceTail,
      second, mayFollow_low_bits _ (show 1 + 1 ≠ 1 by decide),
      mayFollow_low_bits _ (show 1 + 1 + 1 ≠ 1 by decide), if_true, leadBits, lead, next, third,
      last]
    apply congrArg
    omega

end Sequences

/-- The form of a character is read as its code point. -/
theorem isSequence_utf8EncodeChar (c : Char) :
    IsSequence c.toNat (String.utf8EncodeChar c) := by
  have hvalid : c.toNat < 0xD800 ∨ 0xDFFF < c.toNat ∧ c.toNat < 0x110000 := c.valid
  simp only [String.utf8EncodeChar]
  rw [show c.val.toNat = c.toNat from rfl]
  split_ifs with h1 h2 h3
  · exact isSequence_one h1
  · exact isSequence_two (by omega) h2
  · exact isSequence_three (by omega) h3 (by omega)
  · exact isSequence_four (by omega) (by omega)

theorem decodeFrom_skip (acc : List Char) (index : Nat) (tail bs : List UInt8) :
    decodeFrom acc tail.length index (tail ++ bs) = decodeFrom acc 0 (index + tail.length) bs := by
  induction tail generalizing index with
  | nil => rfl
  | cons b tail ih =>
    rw [List.length_cons, List.cons_append, decodeFrom, ih]
    congr 1
    omega

theorem decodeFrom_encode (acc s : List Char) (index : Nat) :
    decodeFrom acc 0 index (encode s) = .ok (acc.reverse ++ s) := by
  induction s generalizing acc index with
  | nil => simp [encode, decodeFrom]
  | cons c s ih =>
    obtain ⟨lead, tail, hform, hlength, htail⟩ := isSequence_utf8EncodeChar c
    have written : encode (c :: s) = lead :: (tail ++ encode s) := by
      rw [encode, List.flatMap_cons, hform]
      rfl
    rw [written, decodeFrom, hlength]
    simp only [Nat.add_sub_cancel, htail]
    rw [decodeFrom_skip, ih, Char.ofNat_toNat]
    simp

/-- The text of bytes that were written. -/
theorem decode_encode (s : List Char) : decode (encode s) = .ok s :=
  decodeFrom_encode [] s 0

end RazorLayout.Text
