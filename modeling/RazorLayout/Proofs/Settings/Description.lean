import Mathlib.Data.List.Basic
import Mathlib.Tactic.Common
import RazorLayout.Proofs.Settings.Layers
import RazorLayout.Proofs.Text.Reading

/-!
# What a configuration file says

A configuration file is an object whose entries name fields, in any order and with any spaces
between its parts. An entry gives a field a value, or it says `null`. The layer that is read from
such a text sets exactly the fields that have a value, each to the value that is written behind its
own key.

## Main definitions

* `Entry`: what is said about one field
* `SpeltEntry`, `SpeltEntries`, `SpeltLayer`: the spellings of entries and of whole files
* `Entry.layer`: the layer that entries describe

## Main results

* `read_literal`: the value of a field is read from its spelling
* `readForm_of_spelt`, `readOverrides_of_spelt`: what a description says is read from the spelling of
  its entries
* `get?_layer`: a layer sets the fields that have a value among its entries
-/

namespace RazorLayout.Settings

open Json

/-! ### Entries and their spelling -/

/-- What a description says about a field: a value, or `null`. -/
structure Entry where
  field : Field
  value : Option field.Value

namespace Field

/-- The value of a field as it is written in files. -/
def literal (f : Field) (v : f.Value) : List Char := f.write (Settings.apply {} (f.set v {}))

/-- Numbers have at most 64 bits. -/
def Fits : (f : Field) → f.Value → Prop
  | indentSize, n | maxLineLength, n | attributesPerLine, n | attributeBreakThreshold, n
  | contentBreakThreshold, n => Nat.le n maxNat64
  | _, _ => True

end Field

namespace Entry

/-- What stands behind the colon. -/
def text (e : Entry) : List Char :=
  match e.value with
  | none => "null".toList
  | some v => e.field.literal v

/-- The layer with the value of the entry, if it has one. -/
def apply (e : Entry) (o : Overrides) : Overrides :=
  match e.value with
  | none => o
  | some v => e.field.set v o

/-- The layer that entries describe. -/
def layer (es : List Entry) : Overrides := es.foldl (fun o e => e.apply o) {}

/-- Numbers have at most 64 bits. -/
def Fits (e : Entry) : Prop := ∀ v, e.value = some v → e.field.Fits v

/-- In complete settings a field that is named has a value. -/
def Admitted (form : Form) (e : Entry) : Prop := form = .complete → e.value ≠ none

end Entry

/-- The spaces of a description. -/
def Spaces (gap : List Char) : Prop := ∀ c ∈ gap, isSpace c = true

/-- The spelling of an entry, with the spaces around its parts. -/
inductive SpeltEntry (e : Entry) : List Char → Prop
  | mk {before behindKey behindColon behind : List Char} (hbefore : Spaces before)
    (hkey : Spaces behindKey) (hcolon : Spaces behindColon) (hbehind : Spaces behind) :
    SpeltEntry e (before ++ '"' :: (e.field.key.toList ++ '"' :: (behindKey ++ ':' ::
      (behindColon ++ (e.text ++ behind)))))

/-- The spelling of entries up to the brace behind the last one. -/
inductive SpeltEntries : List Entry → List Char → Prop
  | last {e : Entry} {t : List Char} (h : SpeltEntry e t) : SpeltEntries [e] (t ++ ['}'])
  | cons {e : Entry} {es : List Entry} {t rest : List Char} (h : SpeltEntry e t)
    (hrest : SpeltEntries es rest) : SpeltEntries (e :: es) (t ++ ',' :: rest)

/-- The spelling of a whole file. -/
inductive SpeltLayer : List Entry → List Char → Prop
  | empty {before inside behind : List Char} (hbefore : Spaces before) (hinside : Spaces inside)
    (hbehind : Spaces behind) : SpeltLayer [] (before ++ '{' :: (inside ++ '}' :: behind))
  | entries {es : List Entry} {before t behind : List Char} (hbefore : Spaces before)
    (h : SpeltEntries es t) (hbehind : Spaces behind) :
    SpeltLayer es (before ++ '{' :: (t ++ behind))

/-! ### What a layer sets -/

theorem get?_apply_of_ne {f : Field} {e : Entry} (h : f ≠ e.field) (o : Overrides) :
    f.get? (e.apply o) = f.get? o := by
  unfold Entry.apply
  split
  · rfl
  · exact Field.get?_set_of_ne h _ o

theorem get?_foldl_of_ne {f : Field} {es : List Entry} (h : ∀ e ∈ es, f ≠ e.field)
    (o : Overrides) : f.get? (es.foldl (fun o e => e.apply o) o) = f.get? o := by
  induction es generalizing o with
  | nil => rfl
  | cons e es ih =>
    obtain ⟨he, hes⟩ := List.forall_mem_cons.1 h
    rw [List.foldl_cons, ih hes, get?_apply_of_ne he]

/-- Later entries leave a field as it is, because no field is named twice. -/
theorem get?_foldl {es : List Entry} (hdistinct : (es.map Entry.field).Nodup) {e : Entry}
    (he : e ∈ es) (o : Overrides) (ho : e.field.get? o = none) :
    e.field.get? (es.foldl (fun o e => e.apply o) o) = e.value := by
  induction es generalizing o with
  | nil => simp at he
  | cons d es ih =>
    rw [List.map_cons, List.nodup_cons] at hdistinct
    obtain ⟨hd, hes⟩ := hdistinct
    rw [List.foldl_cons]
    rcases List.mem_cons.1 he with rfl | he
    · have later : ∀ d ∈ es, e.field ≠ d.field := fun d hmem heq =>
        hd (heq ▸ List.mem_map_of_mem hmem)
      rw [get?_foldl_of_ne later]
      unfold Entry.apply
      split
      · rename_i hvalue
        rw [ho, hvalue]
      · rename_i v hvalue
        rw [Field.get?_set_self, hvalue]
    · have hne : e.field ≠ d.field := fun heq => hd (heq ▸ List.mem_map_of_mem he)
      exact ih hes he _ (by rw [get?_apply_of_ne hne, ho])

/-- A layer sets the fields that have a value among its entries. -/
theorem get?_layer {es : List Entry} (hdistinct : (es.map Entry.field).Nodup) {f : Field}
    {v : f.Value} : f.get? (Entry.layer es) = some v ↔ ⟨f, some v⟩ ∈ es := by
  constructor
  · intro h
    by_cases hf : ∃ e ∈ es, f = e.field
    · obtain ⟨⟨g, value⟩, he, rfl⟩ := hf
      have hvalue : f.get? (Entry.layer es) = value :=
        get?_foldl hdistinct he {} (Field.get?_empty f)
      rwa [← h, hvalue]
    · push Not at hf
      rw [Entry.layer, get?_foldl_of_ne hf, Field.get?_empty] at h
      simp at h
  · intro h
    exact get?_foldl hdistinct h {} (Field.get?_empty f)

/-! ### Reading strings and numbers -/

theorem skipSpace_append {gap : List Char} (hgap : Spaces gap) {s : List Char}
    (hs : ∀ c, s.head? = some c → isSpace c = false) : skipSpace (gap ++ s) = s := by
  rw [skipSpace, List.dropWhile_append_of_pos hgap]
  cases s with
  | nil => rfl
  | cons c s => exact List.dropWhile_cons_of_neg (by simp [hs c rfl])

theorem skipSpace_spaces {gap : List Char} (hgap : Spaces gap) (s : List Char) :
    skipSpace (gap ++ s) = skipSpace s :=
  List.dropWhile_append_of_pos hgap

theorem expectChar_append {gap : List Char} (hgap : Spaces gap) {c : Char}
    (hc : isSpace c = false) (rest : List Char) : expectChar c (gap ++ c :: rest) = .ok rest := by
  rw [expectChar, skipSpace_append hgap (by simpa using hc)]
  exact if_pos rfl

/-- Characters that stand for themselves in a string. -/
def isPlain (c : Char) : Bool := c != '"' && c != '\\' && 0x20 ≤ c.toNat

theorem stringFrom_plain (esc : List Char → Except Fault (Char × Nat)) {w : List Char}
    (hw : w.all isPlain = true) (acc rest : List Char) :
    stringFrom esc acc 0 (w ++ '"' :: rest) = .ok (acc.reverse ++ w, rest) := by
  induction w generalizing acc with
  | nil => simp [stringFrom]
  | cons c w ih =>
    rw [List.all_cons, Bool.and_eq_true] at hw
    have hc := hw.1
    simp only [isPlain, Bool.and_eq_true, bne_iff_ne, decide_eq_true_eq] at hc
    rw [List.cons_append, stringFrom, if_neg hc.1.1, if_neg hc.1.2, if_neg (by omega), ih hw.2]
    simp

theorem readString_plain {w : List Char} (hw : w.all isPlain = true) (rest : List Char) :
    readString (w ++ '"' :: rest) = .ok (w, rest) :=
  stringFrom_plain escape hw [] rest

theorem readChoice_plain {α : Type} {choose : List Char → Option α} {w : List Char} {a : α}
    (hw : w.all isPlain = true) (ha : choose w = some a) (rest : List Char) :
    readChoice choose (w ++ '"' :: rest) = .ok (a, rest) := by
  simp [readChoice, readString_plain hw, ha]

/-- What may stand behind a number: nothing that goes on with it. -/
def EndsNumeral (s : List Char) : Prop :=
  ∀ c, s.head? = some c → isDigit c = false ∧ c ≠ '.' ∧ c ≠ 'e' ∧ c ≠ 'E'

theorem isSpace_of_isDigit {c : Char} (hc : isDigit c = true) : isSpace c = false := by
  rw [Bool.eq_false_iff]
  intro h
  simp only [isSpace, Bool.or_eq_true, beq_iff_eq] at h
  rcases h with ((rfl | rfl) | rfl) | rfl <;> simp [isDigit] at hc

theorem isDigit_toDigits {n : Nat} {c : Char} (hc : c ∈ Nat.toDigits 10 n) : isDigit c = true := by
  have digit := Nat.isDigit_of_mem_toDigits (by decide) (by decide) hc
  simpa [isDigit, Char.isDigit, Char.le_def, UInt32.le_iff_toNat_le] using digit

theorem digitsValue_toDigits (n : Nat) : digitsValue (Nat.toDigits 10 n) = n := by
  have value : digitsValue (Nat.toDigits 10 n) = Nat.ofDigitChars 10 (Nat.toDigits 10 n) 0 := by
    rw [Nat.ofDigitChars_eq_foldl, digitsValue]
    congr 1
    funext n c
    rw [digitValue, Nat.mul_comm]
  rw [value, Nat.ofDigitChars_toDigits (by decide) (by decide)]

/-- No zero stands in front of the digits of a number. -/
theorem head?_toDigits {n : Nat} (h : (Nat.toDigits 10 n).head? = some '0') :
    (Nat.toDigits 10 n).length = 1 := by
  induction n using Nat.strongRecOn with
  | _ n ih =>
    rw [Nat.toDigits_eq_if (by decide)] at h ⊢
    split at h
    · rename_i hn
      rw [if_pos hn]
      rfl
    · -- the digits before the last one would be a zero, and so would be the number
      rename_i hn
      exfalso
      rw [List.head?_append_of_ne_nil _ Nat.toDigits_ne_nil] at h
      have single := ih (n / 10) (by omega) h
      have small : n / 10 < 10 := by
        have := (Nat.length_toDigits_le_iff (b := 10) (n := n / 10) (k := 1) (by decide)
          (by decide)).1 single.le
        omega
      rw [Nat.toDigits_of_lt_base small] at h
      have zero : n / 10 = 0 := by
        have all : ∀ d < 10, Nat.digitChar d = '0' → d = 0 := by decide
        exact all _ small (by simpa using h)
      omega

theorem readWhole_toDigits (n : Nat) {rest : List Char} (hrest : EndsNumeral rest) (atEnd : Fault) :
    readWhole atEnd (Nat.toDigits 10 n ++ rest) = .ok (Nat.toDigits 10 n, rest) := by
  have taken : (Nat.toDigits 10 n ++ rest).takeWhile isDigit = Nat.toDigits 10 n :=
    Text.takeWhile_append_of_all (fun c hc => isDigit_toDigits hc) fun c hc => (hrest c hc).1
  have left : (Nat.toDigits 10 n ++ rest).dropWhile isDigit = rest := by
    have parts := List.takeWhile_append_dropWhile (p := isDigit) (l := Nat.toDigits 10 n ++ rest)
    rw [taken] at parts
    exact List.append_cancel_left parts
  have digits : readDigits atEnd (Nat.toDigits 10 n ++ rest) = .ok (Nat.toDigits 10 n, rest) := by
    obtain ⟨c, ds, hds⟩ := List.exists_cons_of_ne_nil (Nat.toDigits_ne_nil (n := n) (b := 10))
    have hc : isDigit c = true := isDigit_toDigits (n := n) (by simp [hds])
    rw [hds, List.cons_append] at taken left ⊢
    rw [readDigits, if_pos hc, taken, left]
  rw [readWhole, digits]
  dsimp only
  rw [if_neg]
  intro h
  simp only [Bool.and_eq_true, decide_eq_true_eq] at h
  have := head?_toDigits h.2
  omega

theorem readNumeral_toDigits (n : Nat) {rest : List Char} (hrest : EndsNumeral rest)
    (atEnd : Fault) :
    readNumeral atEnd (Nat.toDigits 10 n ++ rest)
      = .ok (⟨false, Nat.toDigits 10 n, none, none⟩, rest) := by
  have unsigned : (Nat.toDigits 10 n ++ rest).head? ≠ some '-' := by
    rw [List.head?_append_of_ne_nil _ Nat.toDigits_ne_nil]
    intro h
    have := isDigit_toDigits (List.mem_of_mem_head? h)
    simp [isDigit] at this
  have whole := readWhole_toDigits n hrest atEnd
  generalize Nat.toDigits 10 n ++ rest = s at unsigned whole
  cases rest with
  | nil => simp [readNumeral, unsigned, whole, bind, Except.bind, pure, Except.pure]
  | cons c rest =>
    obtain ⟨-, hpoint, he, hE⟩ := hrest c rfl
    simp [readNumeral, unsigned, whole, bind, Except.bind, pure, Except.pure, hpoint, he, hE]

theorem readNat_toDigits {n : Nat} (hn : n ≤ maxNat64) {rest : List Char}
    (hrest : EndsNumeral rest) : readNat (Nat.toDigits 10 n ++ rest) = .ok (n, rest) := by
  obtain ⟨c, ds, hds⟩ := List.exists_cons_of_ne_nil (Nat.toDigits_ne_nil (n := n) (b := 10))
  have hc : isDigit c = true := isDigit_toDigits (n := n) (by simp [hds])
  have starts : startsNumeral c = true := by simp [startsNumeral, hc]
  have numeral := readNumeral_toDigits n hrest .endOfInput
  have skipped : skipSpace (Nat.toDigits 10 n ++ rest) = c :: (ds ++ rest) := by
    rw [hds]
    have nothing : Spaces [] := by simp [Spaces]
    exact skipSpace_append nothing (by simpa using isSpace_of_isDigit hc)
  rw [hds, List.cons_append] at numeral
  rw [readNat, skipped]
  dsimp only
  rw [if_pos starts, numeral]
  simp [Numeral.toNat?, ← hds, digitsValue_toDigits, hn]

theorem readBool_literal (b : Bool) (rest : List Char) :
    Json.readBool ((if b then "true" else "false").toList ++ rest) = .ok (b, rest) := by
  cases b <;> simp [Json.readBool, skipSpace, isSpace, expectWord, Except.map]

theorem readName_literal {α : Type} {choose : List Char → Option α} {w : List Char} {a : α}
    (hw : w.all isPlain = true) (ha : choose w = some a) (rest : List Char) :
    readName choose (['"'] ++ w ++ ['"'] ++ rest) = .ok (a, rest) := by
  have skipped : skipSpace ('"' :: (w ++ '"' :: rest)) = '"' :: (w ++ '"' :: rest) := rfl
  simp [readName, skipped, readChoice_plain hw ha]

theorem readName_attributeLayout (a : AttributeLayout) (rest : List Char) :
    readName Field.attributeLayoutOf? (['"'] ++ a.name.toList ++ ['"'] ++ rest) = .ok (a, rest) :=
  readName_literal (by cases a <;> decide) (by cases a <;> decide) rest

theorem readName_quoteStyle (q : QuoteStyle) (rest : List Char) :
    readName Field.quoteStyleOf? (['"'] ++ q.name.toList ++ ['"'] ++ rest) = .ok (q, rest) :=
  readName_literal (by cases q <;> decide) (by cases q <;> decide) rest

/-! ### Reading entries -/

/-- The value of a field is read from its spelling, and no other field is touched. -/
theorem read_literal (f : Field) {v : f.Value} (hv : f.Fits v) (o : Overrides) {rest : List Char}
    (hrest : EndsNumeral rest) : f.read o (f.literal v ++ rest) = .ok (f.set v o, rest) := by
  cases f with
  | indentSize | maxLineLength | attributesPerLine | attributeBreakThreshold
  | contentBreakThreshold => exact congrArg (Except.map _) (readNat_toDigits hv hrest)
  | useTabs | formatCSharp | formatCss | formatJavaScript | breakContent | sortAttributes
  | collapseEmptyTags | removeTrailingWhitespace | insertFinalNewline =>
    exact congrArg (Except.map _) (readBool_literal v rest)
  | attributeLayout => exact congrArg (Except.map _) (readName_attributeLayout v rest)
  | quoteStyle => exact congrArg (Except.map _) (readName_quoteStyle v rest)

/-- Spaces in front of a value are passed over. -/
theorem read_spaces (f : Field) (o : Overrides) {gap : List Char} (hgap : Spaces gap)
    (s : List Char) : f.read o (gap ++ s) = f.read o s := by
  have nat : readNat (gap ++ s) = readNat s := by simp only [readNat, skipSpace_spaces hgap]
  have bool : readBool (gap ++ s) = readBool s := by simp only [readBool, skipSpace_spaces hgap]
  have name {α : Type} (choose : List Char → Option α) :
      readName choose (gap ++ s) = readName choose s := by
    simp only [readName, skipSpace_spaces hgap]
  cases f <;> simp only [Field.read, nat, bool, name]

/-- No value begins with the letter of `null`, nor with a space. -/
theorem literal_eq_cons (f : Field) (v : f.Value) :
    ∃ c t, f.literal v = c :: t ∧ c ≠ 'n' ∧ isSpace c = false := by
  have nat (n : Nat) : ∃ c t, Nat.toDigits 10 n = c :: t ∧ c ≠ 'n' ∧ isSpace c = false := by
    obtain ⟨c, t, h⟩ := List.exists_cons_of_ne_nil (Nat.toDigits_ne_nil (n := n) (b := 10))
    have digit : isDigit c = true := isDigit_toDigits (n := n) (by simp [h])
    refine ⟨c, t, h, ?_, isSpace_of_isDigit digit⟩
    rintro rfl
    simp [isDigit] at digit
  have bool (b : Bool) : ∃ c t, (if b then "true" else "false").toList = c :: t ∧ c ≠ 'n' ∧
      isSpace c = false := by
    cases b with
    | true => exact ⟨'t', "rue".toList, rfl, by decide, by decide⟩
    | false => exact ⟨'f', "alse".toList, rfl, by decide, by decide⟩
  have name (w : List Char) : ∃ c t, ['"'] ++ w ++ ['"'] = c :: t ∧ c ≠ 'n' ∧ isSpace c = false :=
    ⟨'"', w ++ ['"'], rfl, by decide, by decide⟩
  cases f with
  | indentSize | maxLineLength | attributesPerLine | attributeBreakThreshold
  | contentBreakThreshold => exact nat v
  | useTabs | formatCSharp | formatCss | formatJavaScript | breakContent | sortAttributes
  | collapseEmptyTags | removeTrailingWhitespace | insertFinalNewline => exact bool v
  | attributeLayout => exact name (AttributeLayout.name v).toList
  | quoteStyle => exact name (QuoteStyle.name v).toList

/-- What may stand behind the value of an entry. -/
theorem endsNumeral_append {gap : List Char} (hgap : Spaces gap) {c : Char}
    (hc : c = ',' ∨ c = '}') (rest : List Char) : EndsNumeral (gap ++ c :: rest) := by
  intro d hd
  cases gap with
  | nil =>
    obtain rfl : c = d := by simpa using hd
    rcases hc with rfl | rfl <;> decide
  | cons e gap =>
    obtain rfl : e = d := by simpa using hd
    have space := hgap e List.mem_cons_self
    simp only [isSpace, Bool.or_eq_true, beq_iff_eq] at space
    rcases space with ((rfl | rfl) | rfl) | rfl <;> decide

/-- An entry is read into the layer: `null` leaves the layer as it is. -/
theorem readFieldValue_text {form : Form} {e : Entry} (he : e.Fits) (hform : e.Admitted form)
    {gap : List Char} (hgap : Spaces gap) (o : Overrides) {rest : List Char}
    (hrest : EndsNumeral rest) :
    readFieldValue form e.field o (gap ++ (e.text ++ rest)) = .ok (e.apply o, rest) := by
  obtain ⟨f, value⟩ := e
  cases value with
  | none =>
    have skipped : skipSpace (gap ++ ("null".toList ++ rest)) = 'n' :: ("ull".toList ++ rest) :=
      skipSpace_append hgap (s := "null".toList ++ rest) (by simp [isSpace])
    cases form with
    | complete => exact absurd rfl (hform rfl)
    | layered =>
      simp only [readFieldValue, readNullable, Entry.text, skipped]
      simp [expectWord, Except.map, Entry.apply]
  | some v =>
    have read := read_literal f (he v rfl) o hrest
    cases form with
    | complete =>
      rw [readFieldValue, read_spaces f o hgap]
      exact read
    | layered =>
      obtain ⟨c, t, hliteral, hc, hspace⟩ := literal_eq_cons f v
      have skipped : skipSpace (gap ++ (f.literal v ++ rest)) = c :: (t ++ rest) := by
        rw [hliteral]
        exact skipSpace_append hgap (s := c :: (t ++ rest)) (by simpa using hspace)
      rw [hliteral, List.cons_append] at read
      simp [readFieldValue, readNullable, Entry.text, skipped, hc, read, Except.map, Entry.apply]

/-! ### Reading files -/

theorem isPlain_key (f : Field) : f.key.toList.all isPlain = true := by
  cases f <;> decide +kernel

theorem ofKey?_key (f : Field) : Field.ofKey? f.key.toList = some f := by
  have same (g : Field) : (g.key.toList == f.key.toList) = (g.key == f.key) := by
    rw [Bool.eq_iff_iff]
    simp [String.toList_inj]
  simp only [Field.ofKey?, same]
  cases f <;> simp [Field.all, Field.key, List.find?]

section Form

variable {form : Form}

/-- One more entry is read, up to the comma or the brace behind it. -/
theorem readFields_entry {e : Entry} (he : e.Fits) (hform : e.Admitted form) {t : List Char}
    (ht : SpeltEntry e t) {seen : List Field} (hseen : e.field ∉ seen) (fuel : Nat) (o : Overrides)
    {c : Char} (hc : c = ',' ∨ c = '}') (rest : List Char) :
    readFields form (fuel + 1) seen o (t ++ c :: rest)
      = if c = ',' then readFields form fuel (e.field :: seen) (e.apply o) rest
        else .ok (e.apply o, rest) := by
  obtain ⟨hbefore, hkey, hcolon, hbehind⟩ := ht
  rename_i before behindKey behindColon behind
  have value := readFieldValue_text he hform hcolon o (endsNumeral_append hbehind hc rest)
  have space : isSpace c = false := by rcases hc with rfl | rfl <;> rfl
  have next : skipSpace (behind ++ c :: rest) = c :: rest :=
    skipSpace_append hbehind (by simpa using space)
  simp only [List.append_assoc, List.cons_append]
  rw [readFields, skipSpace_append hbefore (by simp [isSpace])]
  simp only [readString_plain (isPlain_key e.field), ofKey?_key, hseen, if_false,
    expectChar_append hkey (show isSpace ':' = false by rfl), value, next, bind, Except.bind,
    pure, Except.pure]
  rcases hc with rfl | rfl <;> simp

theorem readFields_of_spelt {es : List Entry} {t : List Char} (h : SpeltEntries es t)
    (hfits : ∀ e ∈ es, e.Fits) (hform : ∀ e ∈ es, e.Admitted form)
    (hdistinct : (es.map Entry.field).Nodup) {seen : List Field}
    (hseen : ∀ e ∈ es, e.field ∉ seen) {fuel : Nat} (hfuel : es.length ≤ fuel) (o : Overrides)
    (rest : List Char) :
    readFields form fuel seen o (t ++ rest)
      = .ok (es.foldl (fun o e => e.apply o) o, rest) := by
  induction h generalizing seen fuel o with
  | @last e t ht =>
    obtain ⟨fuel, rfl⟩ : ∃ k, fuel = k + 1 := ⟨fuel - 1, by simp at hfuel; omega⟩
    have read := readFields_entry (hfits e (by simp)) (hform e (by simp)) ht (hseen e (by simp))
      fuel o (.inr rfl) rest
    simpa using read
  | @cons e es t tail ht htail ih =>
    obtain ⟨fuel, rfl⟩ : ∃ k, fuel = k + 1 := ⟨fuel - 1, by simp at hfuel; omega⟩
    obtain ⟨he, hes⟩ := List.forall_mem_cons.1 hfits
    obtain ⟨hadmitted, hrest⟩ := List.forall_mem_cons.1 hform
    obtain ⟨hfresh, hold⟩ := List.forall_mem_cons.1 hseen
    rw [List.map_cons, List.nodup_cons] at hdistinct
    have read := readFields_entry he hadmitted ht hfresh fuel o (.inl rfl) (tail ++ rest)
    rw [List.append_assoc, List.cons_append, read, if_pos rfl, List.foldl_cons]
    refine ih hes hrest hdistinct.2 (fun d hd => ?_) (by simpa using hfuel) _
    -- a later entry names a field that is neither seen already nor that of this entry
    rw [List.mem_cons, not_or]
    exact ⟨fun heq => hdistinct.1 (heq ▸ List.mem_map_of_mem hd), hold d hd⟩

theorem SpeltEntries.length_le {es : List Entry} {t : List Char} (h : SpeltEntries es t) :
    es.length ≤ t.length := by
  induction h with
  | last h => simp
  | cons h hrest ih => simp; omega

/-- The first spaces can go, and what is left begins with the quote of a key. -/
theorem SpeltEntry.without_gap {e : Entry} {t : List Char} (h : SpeltEntry e t) :
    ∃ gap s, t = gap ++ '"' :: s ∧ Spaces gap ∧ SpeltEntry e ('"' :: s) := by
  obtain ⟨hbefore, hkey, hcolon, hbehind⟩ := h
  have nothing : Spaces [] := by simp [Spaces]
  exact ⟨_, _, rfl, hbefore, .mk nothing hkey hcolon hbehind⟩

theorem SpeltEntries.without_gap {es : List Entry} {t : List Char} (h : SpeltEntries es t) :
    ∃ gap s, t = gap ++ '"' :: s ∧ Spaces gap ∧ SpeltEntries es ('"' :: s) := by
  cases h with
  | last h =>
    obtain ⟨gap, s, rfl, hgap, hs⟩ := h.without_gap
    exact ⟨gap, s ++ ['}'], by simp, hgap, .last hs⟩
  | @cons e es t rest h hrest =>
    obtain ⟨gap, s, rfl, hgap, hs⟩ := h.without_gap
    exact ⟨gap, s ++ ',' :: rest, by simp, hgap, .cons hs hrest⟩

theorem readObject_of_spelt {es : List Entry} {t : List Char} (h : SpeltEntries es t)
    (hfits : ∀ e ∈ es, e.Fits) (hform : ∀ e ∈ es, e.Admitted form)
    (hdistinct : (es.map Entry.field).Nodup) (rest : List Char) :
    readObject form (t ++ rest) = .ok (Entry.layer es, rest) := by
  obtain ⟨gap, s, rfl, hgap, hs⟩ := h.without_gap
  have enough : es.length ≤ ('"' :: s ++ rest).length + 1 := by
    have := hs.length_le
    rw [List.length_append]
    omega
  rw [List.append_assoc, readObject, skipSpace_append hgap (by simp [isSpace])]
  exact readFields_of_spelt hs hfits hform hdistinct (by simp) enough {} rest

/-- A file is one object, with nothing but spaces around it. -/
theorem readForm_object {before inside behind : List Char} {o : Overrides}
    (hbefore : Spaces before) (hbehind : Spaces behind)
    (h : readObject form inside = .ok (o, behind)) :
    readForm form (before ++ '{' :: inside) = .ok o := by
  have ended : skipSpace behind = [] := by
    simpa using skipSpace_append hbehind (s := []) (by simp)
  rw [readForm, skipSpace_append hbefore (by simp [isSpace])]
  simp only [h, bind, Except.bind, ended]
  rfl

/-- What a description says is read from the spelling of its entries. -/
theorem readForm_of_spelt {es : List Entry} {t : List Char} (h : SpeltLayer es t)
    (hfits : ∀ e ∈ es, e.Fits) (hform : ∀ e ∈ es, e.Admitted form)
    (hdistinct : (es.map Entry.field).Nodup) : readForm form t = .ok (Entry.layer es) := by
  cases h with
  | empty hbefore hinside hbehind =>
    refine readForm_object hbefore hbehind ?_
    rw [readObject, skipSpace_append hinside (by simp [isSpace])]
    rfl
  | entries hbefore ht hbehind =>
    exact readForm_object hbefore hbehind (readObject_of_spelt ht hfits hform hdistinct _)

end Form

/-- The layer is read from the spelling of its entries. -/
theorem readOverrides_of_spelt {es : List Entry} {t : List Char} (h : SpeltLayer es t)
    (hfits : ∀ e ∈ es, e.Fits) (hdistinct : (es.map Entry.field).Nodup) :
    readOverrides t = .ok (Entry.layer es) :=
  readForm_of_spelt h hfits (fun _ _ h => by cases h) hdistinct

end RazorLayout.Settings
