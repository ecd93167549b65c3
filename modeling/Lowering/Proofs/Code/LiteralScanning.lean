import Lowering.Proofs.Code.Layout
import Lowering.Proofs.Code.LiteralReading

/-!
# Where string literals end

Reading a literal gives up at an escape that it knows no character for.  The end
of a literal is found without such knowledge: a backslash takes octal digits, or
else whatever character is next, and the first quote that is not taken in this
way ends the literal.  The scanner below finds it, and keeps the elements that
it has met as they are written.

Reading is scanning and then giving each element its character
(`read?_eq_scan?`), and scanning loses nothing (`eq_of_scan?`).  So what is
known about reading an escaped content says where the scanner stops, and what is
known about the characters of an escaped content says what it has met on the
way.

## Main results

* `eq_of_scan?` — the elements that were met, and what follows the quote, make
  up the text again.
* `read?_eq_scan?` — reading is scanning with a character for each element.
* `scan_stops_at_closing_quote` — a literal cannot be broken out of, and which
  contents it keeps.
-/

namespace Lowering.Code.StringLiteral

/-! ## The scanner -/

/-- What a literal is made of. -/
inductive Element where
  /-- A character that stands for itself. -/
  | bare (c : Char)
  /-- A backslash and the character that it takes. -/
  | named (c : Char)
  /-- A backslash and the octal digits that it takes. -/
  | octal (digits : Text)
deriving DecidableEq

namespace Element

def spelling : Element → Text
  | .bare c => [c]
  | .named c => ['\\', c]
  | .octal digits => '\\' :: digits

/-- The character that an element stands for, if it is one of those in use. -/
def value? : Element → Option Char
  | .bare c => some c
  | .named c => simpleEscape? c
  | .octal digits => some (Char.ofNat (octalValue digits))

end Element

/-- The escape behind a backslash, and what follows. -/
def scanEscape? (text : Text) : Option (Element × Text) :=
  let digits := octalDigits text
  if digits = [] then
    match text with
    | [] => none
    | c :: rest => some (.named c, rest)
  else some (.octal digits, text.drop digits.length)

/-- The next element, and what follows. -/
def scanElement? : Text → Option (Element × Text)
  | [] => none
  | c :: rest => if c = '\\' then scanEscape? rest else some (.bare c, rest)

theorem octalDigits_append_drop (text : Text) :
    octalDigits text ++ text.drop (octalDigits text).length = text :=
  leading_append_drop isOctalDigit 3 text

/-- A backslash is never left without what it takes. -/
theorem eq_of_scanEscape? {text rest : Text} {element : Element}
    (h : scanEscape? text = some (element, rest)) :
    '\\' :: text = element.spelling ++ rest := by
  simp only [scanEscape?] at h
  split at h
  · cases text with
    | nil => cases h
    | cons c tail =>
        cases h
        rfl
  · cases h
    rw [Element.spelling, List.cons_append, octalDigits_append_drop]

theorem eq_of_scanElement? {text rest : Text} {element : Element}
    (h : scanElement? text = some (element, rest)) :
    text = element.spelling ++ rest := by
  cases text with
  | nil => cases h
  | cons c tail =>
      rw [scanElement?] at h
      split at h
      · rename_i hc
        rw [hc]
        exact eq_of_scanEscape? h
      · cases h
        rfl

theorem Element.length_spelling_pos (element : Element) :
    0 < element.spelling.length := by
  cases element <;> simp [spelling]

theorem length_lt_of_scanElement? {text rest : Text} {element : Element}
    (h : scanElement? text = some (element, rest)) :
    rest.length < text.length := by
  have hpos := element.length_spelling_pos
  rw [eq_of_scanElement? h, List.length_append]
  omega

/-- Scans a literal behind its opening quote: the elements in front of the quote
that ends it, and what follows this quote. -/
def scan? (text : Text) : Option (List Element × Text) :=
  if text.head? = some '"' then some ([], text.tail)
  else
    match _h : scanElement? text with
    | none => none
    | some (element, rest) => (scan? rest).map (Prod.map (element :: ·) id)
termination_by text.length
decreasing_by exact length_lt_of_scanElement? _h

/-- Nothing is lost between the opening quote and the closing one. -/
theorem eq_of_scan? {text rest : Text} {elements : List Element}
    (h : scan? text = some (elements, rest)) :
    text = elements.flatMap Element.spelling ++ '"' :: rest := by
  fun_induction scan? text generalizing elements rest with
  | case1 text hquote =>
      cases h
      obtain ⟨tail, rfl⟩ := List.head?_eq_some_iff.1 hquote
      rfl
  | case2 text hquote hnone => cases h
  | case3 text hquote element tail helement ih =>
      obtain ⟨⟨others, after⟩, hscan, heq⟩ := Option.map_eq_some_iff.1 h
      obtain ⟨rfl, rfl⟩ : element :: others = elements ∧ after = rest :=
        Prod.mk.inj heq
      rw [eq_of_scanElement? helement, ih hscan, List.flatMap_cons,
        List.append_assoc]

/-- What holds of each element when it is met holds of all that were met. -/
theorem forall_mem_of_scan? {P : Element → Prop}
    (hP : ∀ {text rest element}, scanElement? text = some (element, rest) →
      P element)
    {text rest : Text} {elements : List Element}
    (h : scan? text = some (elements, rest)) :
    ∀ element ∈ elements, P element := by
  fun_induction scan? text generalizing elements rest with
  | case1 text hquote =>
      cases h
      simp
  | case2 text hquote hnone => cases h
  | case3 text hquote element tail helement ih =>
      obtain ⟨⟨others, after⟩, hscan, heq⟩ := Option.map_eq_some_iff.1 h
      obtain ⟨rfl, rfl⟩ : element :: others = elements ∧ after = rest :=
        Prod.mk.inj heq
      rw [List.forall_mem_cons]
      exact ⟨hP helement, ih hscan⟩

/-! ## Scanning and reading -/

/-- The character of an element; what follows stays. -/
def charOf? (scanned : Element × Text) : Option (Char × Text) :=
  scanned.1.value?.map fun c => (c, scanned.2)

/-- The content that elements stand for; what follows stays. -/
def contentOf? (scanned : List Element × Text) : Option (Text × Text) :=
  (scanned.1.mapM Element.value?).map fun content => (content, scanned.2)

theorem readEscape?_eq_scanEscape? (text : Text) :
    readEscape? text = (scanEscape? text).bind charOf? := by
  simp only [readEscape?, scanEscape?]
  split
  · cases text with
    | nil => rfl
    | cons c rest => rfl
  · rfl

theorem readChar?_eq_scanElement? (text : Text) :
    readChar? text = (scanElement? text).bind charOf? := by
  cases text with
  | nil => rfl
  | cons c rest =>
      rw [readChar?, scanElement?]
      split
      · exact readEscape?_eq_scanEscape? rest
      · rfl

theorem contentOf?_cons (element : Element) (elements : List Element)
    (rest : Text) :
    contentOf? (element :: elements, rest) =
      element.value?.bind fun c =>
        (contentOf? (elements, rest)).map (Prod.map (c :: ·) id) := by
  cases hvalue : element.value? with
  | none => simp [contentOf?, hvalue]
  | some c =>
      cases hvalues : elements.mapM Element.value? with
      | none => simp [contentOf?, hvalue, hvalues]
      | some content => simp [contentOf?, hvalue, hvalues]

theorem bind_contentOf?_cons (element : Element)
    (scanned : Option (List Element × Text)) :
    (scanned.map (Prod.map (element :: ·) id)).bind contentOf? =
      element.value?.bind fun c =>
        (scanned.bind contentOf?).map (Prod.map (c :: ·) id) := by
  cases scanned with
  | none => cases element.value? <;> rfl
  | some scanned => exact contentOf?_cons element scanned.1 scanned.2

theorem read?_of_readChar?_eq_none {text : Text}
    (hquote : text.head? ≠ some '"') (h : readChar? text = none) :
    read? text = none := by
  rw [read?, if_neg hquote]
  split
  · rfl
  · rename_i heq
    rw [h] at heq
    cases heq

theorem read?_eq_scan? (text : Text) :
    read? text = (scan? text).bind contentOf? := by
  fun_induction scan? text with
  | case1 text hquote =>
      obtain ⟨tail, rfl⟩ := List.head?_eq_some_iff.1 hquote
      exact read?_quote tail
  | case2 text hquote hnone =>
      have hchar : readChar? text = none := by
        rw [readChar?_eq_scanElement?, hnone]
        rfl
      exact read?_of_readChar?_eq_none hquote hchar
  | case3 text hquote element rest helement ih =>
      have hchar : readChar? text = charOf? (element, rest) := by
        rw [readChar?_eq_scanElement?, helement]
        rfl
      rw [bind_contentOf?_cons]
      cases hvalue : element.value? with
      | none =>
          rw [charOf?, hvalue] at hchar
          exact read?_of_readChar?_eq_none hquote hchar
      | some c =>
          rw [charOf?, hvalue] at hchar
          rw [read?_of_readChar? hquote hchar, ih]
          rfl

/-! ## Escaped contents -/

/-- The element is no control character, and no escape but an octal one or one
of those that are written. -/
def Element.IsClean : Element → Prop
  | .bare c => isControl c = false
  | .named c => c ∈ ['"', '\\', 'n', 'r', 't']
  | .octal digits =>
      0 < digits.length ∧ digits.length ≤ 3 ∧
        ∀ c ∈ digits, isOctalDigit c = true

theorem isOctal_of_scanElement? {text rest digits : Text}
    (h : scanElement? text = some (.octal digits, rest)) :
    0 < digits.length ∧ digits.length ≤ 3 ∧
      ∀ c ∈ digits, isOctalDigit c = true := by
  cases text with
  | nil => cases h
  | cons c tail =>
      simp only [scanElement?, scanEscape?] at h
      split at h
      · split at h
        · cases tail <;> cases h
        · rename_i hdigits
          cases h
          refine ⟨List.length_pos_iff.2 hdigits, List.length_take_le _ _, ?_⟩
          intro d hd
          exact List.all_eq_true.1 List.all_takeWhile d (List.mem_of_mem_take hd)
      · cases h

theorem mem_of_simpleEscape? {c d : Char} (h : simpleEscape? c = some d) :
    c ∈ ['"', '\\', 'n', 'r', 't'] := by
  unfold simpleEscape? at h
  split at h
  case h_6 => cases h
  all_goals decide

theorem isControl_of_mem_escape {content : Text} {c : Char}
    (h : c ∈ escape content) : isControl c = false := by
  obtain ⟨source, -, hc⟩ := List.mem_flatMap.1 h
  exact isControl_of_mem_escapeChar hc

theorem exists_value_of_mem {elements : List Element} {values : Text}
    (h : elements.mapM Element.value? = some values) {element : Element}
    (hmem : element ∈ elements) : ∃ c, element.value? = some c := by
  induction elements generalizing values with
  | nil => cases hmem
  | cons first others ih =>
      simp only [List.mapM_cons, Option.bind_eq_bind,
        Option.bind_eq_some_iff] at h
      obtain ⟨c, hfirst, rest, hothers, -⟩ := h
      rcases List.mem_cons.1 hmem with rfl | hmem
      · exact ⟨c, hfirst⟩
      · exact ih hothers hmem

/-- Elements that have a character each, and are what an escaped content is made
of, are clean. -/
theorem isClean_of_scan? {content text rest : Text} {elements : List Element}
    (hscan : scan? text = some (elements, rest))
    (hspelling : elements.flatMap Element.spelling = escape content)
    {values : Text} (hvalues : elements.mapM Element.value? = some values) :
    ∀ element ∈ elements, element.IsClean := by
  intro element helement
  cases element with
  | bare c =>
      have hmem : c ∈ elements.flatMap Element.spelling :=
        List.mem_flatMap.2 ⟨_, helement, List.mem_singleton_self c⟩
      rw [hspelling] at hmem
      exact isControl_of_mem_escape hmem
  | named c =>
      obtain ⟨d, hd⟩ := exists_value_of_mem hvalues helement
      exact mem_of_simpleEscape? hd
  | octal digits =>
      -- The spelling does not tell how many digits were taken, the scan does.
      have hoctal := forall_mem_of_scan? (P := fun element =>
        ∀ digits, element = .octal digits → Element.IsClean (.octal digits))
        (by rintro _ _ _ h digits rfl; exact isOctal_of_scanElement? h) hscan
      exact hoctal _ helement digits rfl

/--
However a content is chosen, and whatever follows its literal, the scanner stops
at the quote that closes the literal.  It has met all of the escaped content and
nothing else: no control character, and no escape but octal ones and those of a
quote, a backslash, a newline, a carriage return and a tab.  The elements stand
for the content exactly if no NUL in it has an octal digit behind it.
-/
theorem scan_stops_at_closing_quote (content text : Text) :
    ∃ elements values,
      scan? (escape content ++ '"' :: text) = some (elements, text) ∧
      elements.flatMap Element.spelling = escape content ∧
      (∀ element ∈ elements, element.IsClean) ∧
      elements.mapM Element.value? = some values ∧
      (values = content ↔ NulsApart content) := by
  have hread := read?_escape_append content text
  rw [read?_eq_scan?] at hread
  obtain ⟨⟨elements, rest⟩, hscan, hcontent⟩ := Option.bind_eq_some_iff.1 hread
  obtain ⟨values, hvalues, heq⟩ := Option.map_eq_some_iff.1 hcontent
  obtain ⟨rfl, rfl⟩ : values = denoted content ∧ rest = text :=
    Prod.mk.inj heq
  have hspelling : elements.flatMap Element.spelling = escape content :=
    (List.append_cancel_right (eq_of_scan? hscan)).symm
  exact ⟨elements, denoted content, hscan, hspelling,
    isClean_of_scan? hscan hspelling hvalues, hvalues, denoted_eq_self_iff⟩

end Lowering.Code.StringLiteral
