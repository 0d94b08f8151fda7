/-!
# Control characters in the log

A message of the log may quote names and patterns of any kind. So that none of them steers the
terminal which shows the log, the characters that could do so are written by their numbers.

## Main definitions

* `Text.steersTerminal`: the control characters that are not shown
* `Text.showControls`: a text with their numbers in place of them

## Main results

* `showControls_safe`: nothing that steers a terminal is left
* `showControls_eq_self`: a text without such characters is kept
-/

namespace RazorLayout.Text

/-- The control characters of a terminal in ASCII: bell, backspace, form feed, escape and
delete. -/
def terminalControls : List Nat := [0x07, 0x08, 0x0C, 0x1B, 0x7F]

/-- The control characters beyond ASCII. -/
def isHighControl (c : Char) : Bool := 0x80 ≤ c.toNat && c.toNat ≤ 0x9F

/-- The control characters that are not shown as they are. -/
def steersTerminal (c : Char) : Bool := terminalControls.contains c.toNat || isHighControl c

/-- A number below 256 in hexadecimal. -/
def twoHexDigits (n : Nat) : List Char := [Nat.digitChar (n / 16), Nat.digitChar (n % 16)]

/-- A character, or its number when it would steer a terminal. Beyond ASCII the number stands in
braces. -/
def showControl (c : Char) : List Char :=
  if isHighControl c then ['\\', 'u', '{'] ++ twoHexDigits c.toNat ++ ['}']
  else if steersTerminal c then ['\\', 'x'] ++ twoHexDigits c.toNat
  else [c]

/-- The text with the numbers of the characters that would steer a terminal. -/
def showControls (s : List Char) : List Char := s.flatMap showControl

/-- A hexadecimal digit is safe to show. -/
theorem steersTerminal_digitChar (n : Nat) (h : n < 16) :
    steersTerminal (Nat.digitChar n) = false := by
  have : ∀ n < 16, steersTerminal (Nat.digitChar n) = false := by decide
  exact this n h

/-- What is shown for a character is safe. -/
theorem showControl_safe (c d : Char) (h : d ∈ showControl c) : steersTerminal d = false := by
  have hex (hc : c.toNat < 256) (hd : d ∈ twoHexDigits c.toNat) : steersTerminal d = false := by
    simp only [twoHexDigits, List.mem_cons, List.not_mem_nil, or_false] at hd
    rcases hd with rfl | rfl <;> exact steersTerminal_digitChar _ (by omega)
  unfold showControl at h
  split at h
  next hc =>
    simp only [isHighControl, Bool.and_eq_true, decide_eq_true_eq] at hc
    simp only [List.cons_append, List.nil_append, List.mem_cons, List.mem_append,
      List.not_mem_nil, or_false] at h
    rcases h with rfl | rfl | rfl | h | rfl
    · decide
    · decide
    · decide
    · exact hex (by omega) h
    · decide
  next hn =>
    split at h
    next hc =>
      have hc' : c.toNat < 256 := by
        simp only [steersTerminal, terminalControls, hn, Bool.or_false, List.contains_cons,
          List.contains_nil, Bool.or_eq_true, beq_iff_eq] at hc
        omega
      simp only [List.cons_append, List.nil_append, List.mem_cons] at h
      rcases h with rfl | rfl | h
      · decide
      · decide
      · exact hex hc' h
    next hc => simp_all

/-- Nothing that steers a terminal is left. -/
theorem showControls_safe (s : List Char) (d : Char) (h : d ∈ showControls s) :
    steersTerminal d = false := by
  obtain ⟨c, _, hd⟩ := List.mem_flatMap.1 h
  exact showControl_safe c d hd

/-- A text that holds nothing that steers a terminal is kept. -/
theorem showControls_eq_self (s : List Char) (h : ∀ c ∈ s, steersTerminal c = false) :
    showControls s = s := by
  induction s with
  | nil => rfl
  | cons c s ih =>
    have hc : steersTerminal c = false := h c (by simp)
    have hn : isHighControl c = false := by
      simp only [steersTerminal, Bool.or_eq_false_iff] at hc
      exact hc.2
    have hs := ih fun d hd => h d (by simp [hd])
    simp only [showControls] at hs ⊢
    simp [showControl, hc, hn, hs]

end RazorLayout.Text
