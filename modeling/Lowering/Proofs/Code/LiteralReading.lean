import Lowering.Code.Expression
import Mathlib.Data.List.Chain

/-!
# Reading string literals

The other side of `StringLiteral.escape`: how the target reads what stands
behind an opening quote.  A backslash takes the octal digits behind it, as many
as there are up to three, or else the one character that names a simple escape.
All other characters stand for themselves, and a bare quote ends the literal.

Every literal is read, but not always as its content.  Escaping a NUL gives a
single digit, and a reader that finds more octal digits there takes them too:
`denoted` says what comes out.  It is the content exactly if no NUL has an octal
digit behind it.

## Main results

* `read?_escape_append` — what is read from a literal, with whatever follows it.
* `denoted_eq_self_iff` — which contents are read back.
* `quote_append_inj` — a literal in front of a text determines its content and
  the text.
* `literal_keeps_content_iff` — the same for the strings of a program.
-/

namespace Lowering.Code.StringLiteral

/-! ## The reader -/

def isOctalDigit (c : Char) : Bool :=
  '0'.toNat ≤ c.toNat && c.toNat < '0'.toNat + 8

/-- The number that octal digits spell. -/
def octalValue (digits : Text) : Nat :=
  digits.foldl (fun n c => 8 * n + (c.toNat - '0'.toNat)) 0

/-- The octal digits at the front, three at most. -/
def octalDigits (text : Text) : Text :=
  (text.takeWhile isOctalDigit).take 3

/-- The character of an escape that is named by one letter or sign. -/
def simpleEscape? (c : Char) : Option Char :=
  match c with
  | '"' => some '"'
  | '\\' => some '\\'
  | 'n' => some '\n'
  | 'r' => some '\r'
  | 't' => some '\t'
  | _ => none

/-- The character behind a backslash, and what follows. -/
def readEscape? (text : Text) : Option (Char × Text) :=
  let digits := octalDigits text
  if digits = [] then
    match text with
    | [] => none
    | c :: rest => (simpleEscape? c).map fun denoted => (denoted, rest)
  else some (Char.ofNat (octalValue digits), text.drop digits.length)

/-- The next character of a literal, and what follows. -/
def readChar? : Text → Option (Char × Text)
  | [] => none
  | c :: rest => if c = '\\' then readEscape? rest else some (c, rest)

theorem length_lt_of_readEscape? {text rest : Text} {c : Char}
    (h : readEscape? text = some (c, rest)) : rest.length < text.length := by
  simp only [readEscape?] at h
  split at h
  · cases text with
    | nil => cases h
    | cons first tail =>
        obtain ⟨_, _, heq⟩ := Option.map_eq_some_iff.1 h
        obtain ⟨_, rfl⟩ := Prod.mk.inj heq
        simp
  · rename_i hdigits
    obtain ⟨_, rfl⟩ := Prod.mk.inj (Option.some.inj h)
    have hpos : 0 < (octalDigits text).length := List.length_pos_iff.2 hdigits
    have hle : (octalDigits text).length ≤ text.length :=
      ((List.take_sublist _ _).trans (List.takeWhile_sublist _)).length_le
    rw [List.length_drop]
    omega

theorem length_lt_of_readChar? {text rest : Text} {c : Char}
    (h : readChar? text = some (c, rest)) : rest.length < text.length := by
  cases text with
  | nil => cases h
  | cons first tail =>
      rw [readChar?] at h
      split at h
      · have hlt := length_lt_of_readEscape? h
        rw [List.length_cons]
        omega
      · obtain ⟨_, rfl⟩ := Prod.mk.inj (Option.some.inj h)
        simp

/-- Reads a literal behind its opening quote: the content, and what follows the
closing quote. -/
def read? (text : Text) : Option (Text × Text) :=
  if text.head? = some '"' then some ([], text.tail)
  else
    match _h : readChar? text with
    | none => none
    | some (c, rest) =>
        (read? rest).map fun (content, after) => (c :: content, after)
termination_by text.length
decreasing_by exact length_lt_of_readChar? _h

theorem read?_quote (text : Text) : read? ('"' :: text) = some ([], text) := by
  rw [read?]
  simp

theorem read?_of_readChar? {text rest : Text} {c : Char}
    (hquote : text.head? ≠ some '"') (h : readChar? text = some (c, rest)) :
    read? text =
      (read? rest).map fun (content, after) => (c :: content, after) := by
  rw [read?, if_neg hquote]
  split
  · rename_i hnone
    rw [h] at hnone
    cases hnone
  · rename_i heq
    rw [h] at heq
    cases heq
    rfl

/-! ## Octal escapes -/

theorem toNat_octalDigit (n : Nat) :
    (octalDigit n).toNat = '0'.toNat + n % 8 := by
  have hdigits : ∀ k < 8,
      (Char.ofNat ('0'.toNat + k)).toNat = '0'.toNat + k := by
    decide
  exact hdigits (n % 8) (Nat.mod_lt n (by decide))

theorem isOctalDigit_octalDigit (n : Nat) :
    isOctalDigit (octalDigit n) = true := by
  have hlt : n % 8 < 8 := Nat.mod_lt n (by decide)
  simp only [isOctalDigit, toNat_octalDigit, Bool.and_eq_true,
    decide_eq_true_eq]
  omega

theorem octalDigits_octal_append (n : Nat) (text : Text) :
    octalDigits (octal n ++ text) = octal n := by
  simp [octalDigits, octal, isOctalDigit_octalDigit]

theorem octalValue_octal {n : Nat} (h : n < 512) : octalValue (octal n) = n := by
  have hvalue : octalValue (octal n) =
      8 * (8 * (n / 64 % 8) + n / 8 % 8) + n % 8 := by
    simp [octalValue, octal, toNat_octalDigit]
  omega

theorem readEscape?_octal_append {n : Nat} (h : n < 512) (text : Text) :
    readEscape? (octal n ++ text) = some (Char.ofNat n, text) := by
  have hne : octal n ≠ [] := List.cons_ne_nil _ _
  simp only [readEscape?]
  rw [octalDigits_octal_append, if_neg hne, octalValue_octal h,
    List.drop_left]

/-- The octal digits that a lone zero takes along: two at most, since the zero
is one of the three. -/
def digitsBehindZero (text : Text) : Text :=
  (text.takeWhile isOctalDigit).take 2

theorem octalDigits_zero (text : Text) :
    octalDigits ('0' :: text) = '0' :: digitsBehindZero text := by
  have hzero : isOctalDigit '0' = true := by decide
  rw [octalDigits, List.takeWhile_cons_of_pos hzero, List.take_succ_cons,
    digitsBehindZero]

theorem readEscape?_zero (text : Text) :
    readEscape? ('0' :: text) =
      some (Char.ofNat (octalValue (digitsBehindZero text)),
        text.drop (digitsBehindZero text).length) := by
  have hvalue : octalValue ('0' :: digitsBehindZero text) =
      octalValue (digitsBehindZero text) := rfl
  simp only [readEscape?]
  rw [octalDigits_zero, if_neg (List.cons_ne_nil _ _), hvalue,
    List.length_cons, List.drop_succ_cons]

/-! ## What is read -/

/-- The content as it is read from its literal.  A NUL takes along the octal
digits behind it, and all of them are read as one character. -/
def denoted : Text → Text
  | [] => []
  | c :: rest =>
      if c = '\x00' then
        Char.ofNat (octalValue (digitsBehindZero rest)) ::
          denoted (rest.drop (digitsBehindZero rest).length)
      else c :: denoted rest
termination_by content => content.length
decreasing_by
  · rw [List.length_drop, List.length_cons]
    omega
  · simp

theorem denoted_nul (rest : Text) :
    denoted ('\x00' :: rest) =
      Char.ofNat (octalValue (digitsBehindZero rest)) ::
        denoted (rest.drop (digitsBehindZero rest).length) := by
  rw [denoted, if_pos rfl]

theorem denoted_cons {c : Char} (hc : c ≠ '\x00') (rest : Text) :
    denoted (c :: rest) = c :: denoted rest := by
  rw [denoted, if_neg hc]

theorem isControl_toNat_lt {c : Char} (h : isControl c = true) :
    c.toNat < 512 := by
  simp only [isControl, Bool.or_eq_true, decide_eq_true_eq] at h
  omega

/-- A character stands for itself, or it is written as an escape from which it
is read back.  Only for a NUL this depends on what follows. -/
theorem escapeChar_cases {c : Char} (hc : c ≠ '\x00') :
    (escapeChar c = [c] ∧ c ≠ '"' ∧ c ≠ '\\') ∨
      ∃ spelled, escapeChar c = '\\' :: spelled ∧
        ∀ text, readEscape? (spelled ++ text) = some (c, text) := by
  unfold escapeChar
  split
  case h_6 => exact absurd rfl hc
  case h_7 hquote hbackslash _ _ _ _ =>
    split
    · rename_i hcontrol
      refine .inr ⟨octal c.toNat, rfl, fun text => ?_⟩
      have hread := readEscape?_octal_append (isControl_toNat_lt hcontrol) text
      rwa [Char.ofNat_toNat] at hread
    · exact .inl ⟨rfl, hquote, hbackslash⟩
  all_goals exact .inr ⟨_, rfl, fun text => rfl⟩

/-- What stands for a character other than NUL is read as this character. -/
theorem read?_escapeChar_append {c : Char} (hc : c ≠ '\x00') (text : Text) :
    read? (escapeChar c ++ text) =
      (read? text).map fun (content, after) => (c :: content, after) := by
  rcases escapeChar_cases hc with
    ⟨hself, hquote, hbackslash⟩ | ⟨spelled, hspelled, hread⟩
  · rw [hself, List.singleton_append]
    apply read?_of_readChar?
    · simpa using hquote
    · rw [readChar?, if_neg hbackslash]
  · rw [hspelled, List.cons_append]
    apply read?_of_readChar?
    · simp
    · rw [readChar?, if_pos rfl, hread text]

theorem escapeChar_of_isOctalDigit {c : Char} (h : isOctalDigit c = true) :
    escapeChar c = [c] := by
  have hbounds : '0'.toNat ≤ c.toNat ∧ c.toNat < '0'.toNat + 8 := by
    simpa [isOctalDigit] using h
  unfold escapeChar
  split
  case h_7 =>
    have hcontrol : isControl c = false := by
      have hzero : '0'.toNat = 48 := rfl
      simp only [isControl, Bool.or_eq_false_iff, decide_eq_false_iff_not]
      omega
    simp [hcontrol]
  all_goals exact absurd h (by decide)

/-- Octal digits stand for themselves. -/
theorem escape_digits_append {digits : Text}
    (h : ∀ c ∈ digits, isOctalDigit c = true) (rest : Text) :
    escape (digits ++ rest) = digits ++ escape rest := by
  induction digits with
  | nil => rfl
  | cons c digits ih =>
      rw [List.forall_mem_cons] at h
      have hrest : escape (digits ++ rest) = digits ++ escape rest := ih h.2
      rw [List.cons_append, escape, List.flatMap_cons, ← escape, hrest,
        escapeChar_of_isOctalDigit h.1, List.singleton_append,
        List.cons_append]

/-- A literal goes on with octal digits only where its content does. -/
theorem takeWhile_escape_append (content text : Text) :
    (escape content ++ '"' :: text).takeWhile isOctalDigit =
      content.takeWhile isOctalDigit := by
  induction content with
  | nil => rfl
  | cons c rest ih =>
      rw [escape, List.flatMap_cons, List.append_assoc, ← escape]
      by_cases hdigit : isOctalDigit c = true
      · rw [escapeChar_of_isOctalDigit hdigit, List.singleton_append,
          List.takeWhile_cons_of_pos hdigit, ih,
          List.takeWhile_cons_of_pos hdigit]
      · rw [List.takeWhile_cons_of_neg hdigit]
        by_cases hc : c = '\x00'
        · subst hc
          rfl
        · rcases escapeChar_cases hc with ⟨hself, -, -⟩ | ⟨spelled, hspelled, -⟩
          · rw [hself, List.singleton_append, List.takeWhile_cons_of_neg hdigit]
          · rw [hspelled]
            rfl

theorem digitsBehindZero_escape_append (content text : Text) :
    digitsBehindZero (escape content ++ '"' :: text) =
      digitsBehindZero content := by
  rw [digitsBehindZero, takeWhile_escape_append, digitsBehindZero]

theorem isOctalDigit_of_mem_digitsBehindZero (content : Text) :
    ∀ c ∈ digitsBehindZero content, isOctalDigit c = true := by
  intro c hc
  exact List.all_eq_true.1 List.all_takeWhile c (List.mem_of_mem_take hc)

/-- Digits are counted off at the front of a text. -/
theorem leading_append_drop (p : Char → Bool) (n : Nat) (text : Text) :
    (text.takeWhile p).take n ++ text.drop ((text.takeWhile p).take n).length =
      text := by
  have hprefix : (text.takeWhile p).take n <+: text :=
    (List.take_prefix _ _).trans (List.takeWhile_prefix _)
  exact List.prefix_iff_eq_append.1 hprefix

theorem digitsBehindZero_append_drop (content : Text) :
    digitsBehindZero content ++ content.drop (digitsBehindZero content).length =
      content :=
  leading_append_drop isOctalDigit 2 content

/-- The digits that a NUL takes along are those of the content. -/
theorem drop_escape_append (content text : Text) :
    (escape content ++ text).drop (digitsBehindZero content).length =
      escape (content.drop (digitsBehindZero content).length) ++ text := by
  have hescape := escape_digits_append
    (isOctalDigit_of_mem_digitsBehindZero content)
    (content.drop (digitsBehindZero content).length)
  rw [digitsBehindZero_append_drop] at hescape
  rw [hescape, List.append_assoc, List.drop_left]

/-- A literal is read to its closing quote and no further, whatever follows. -/
theorem read?_escape_append (content text : Text) :
    read? (escape content ++ '"' :: text) = some (denoted content, text) := by
  fun_induction denoted content with
  | case1 => exact read?_quote text
  | case2 rest ih =>
      have hchar : readChar? (escape ('\x00' :: rest) ++ '"' :: text) =
          some (Char.ofNat (octalValue (digitsBehindZero rest)),
            escape (rest.drop (digitsBehindZero rest).length) ++
              '"' :: text) := by
        have hzero := readEscape?_zero (escape rest ++ '"' :: text)
        rw [digitsBehindZero_escape_append, drop_escape_append] at hzero
        exact hzero
      have hquote :
          (escape ('\x00' :: rest) ++ '"' :: text).head? ≠ some '"' := by
        show some '\\' ≠ some '"'
        decide
      rw [read?_of_readChar? hquote hchar, ih]
      rfl
  | case3 c rest hc ih =>
      rw [escape, List.flatMap_cons, List.append_assoc, ← escape,
        read?_escapeChar_append hc, ih]
      rfl

/-! ## Contents that are kept -/

/-- No NUL has an octal digit behind it. -/
def NulsApart (content : Text) : Prop :=
  content.IsChain fun c next => c = '\x00' → isOctalDigit next = false

theorem nulsApart_cons_iff {c : Char} {rest : Text} :
    NulsApart (c :: rest) ↔
      (c = '\x00' → digitsBehindZero rest = []) ∧ NulsApart rest := by
  cases rest with
  | nil => simp [NulsApart, digitsBehindZero]
  | cons next rest =>
      have hdigits : digitsBehindZero (next :: rest) = [] ↔
          isOctalDigit next = false := by
        cases hnext : isOctalDigit next <;> simp [digitsBehindZero, hnext]
      rw [NulsApart, List.isChain_cons_cons, hdigits, NulsApart]

theorem length_denoted_le (content : Text) :
    (denoted content).length ≤ content.length := by
  fun_induction denoted content with
  | case1 => exact Nat.le_refl _
  | case2 rest ih =>
      rw [List.length_drop] at ih
      rw [List.length_cons, List.length_cons]
      omega
  | case3 c rest hc ih => exact Nat.succ_le_succ ih

theorem denoted_eq_self_iff {content : Text} :
    denoted content = content ↔ NulsApart content := by
  induction content with
  | nil => simp [denoted, NulsApart]
  | cons c rest ih =>
      rw [nulsApart_cons_iff]
      by_cases hc : c = '\x00'
      · subst hc
        rw [denoted_nul]
        by_cases hdigits : digitsBehindZero rest = []
        · have hnul : Char.ofNat (octalValue []) = '\x00' := rfl
          rw [hdigits, hnul]
          simpa using ih
        · have hpos : 0 < (digitsBehindZero rest).length :=
            List.length_pos_iff.2 hdigits
          have hle := congrArg List.length (digitsBehindZero_append_drop rest)
          have hshort := length_denoted_le
            (rest.drop (digitsBehindZero rest).length)
          rw [List.length_append] at hle
          constructor
          · -- One character is read for the NUL and all of its digits.
            intro h
            have hsame := congrArg List.length (List.cons.inj h).2
            omega
          · intro h
            exact absurd (h.1 rfl) hdigits
      · rw [denoted_cons hc]
        simp [hc, ih]

theorem read?_escape {content : Text} (h : NulsApart content) (text : Text) :
    read? (escape content ++ '"' :: text) = some (content, text) := by
  rw [read?_escape_append, denoted_eq_self_iff.2 h]

theorem quote_append_inj {content content' text text' : Text}
    (h : NulsApart content) (h' : NulsApart content')
    (heq : quote content ++ text = quote content' ++ text') :
    content = content' ∧ text = text' := by
  have hbody :
      escape content ++ '"' :: text = escape content' ++ '"' :: text' := by
    simpa [quote] using heq
  have hread := read?_escape h text
  rw [hbody, read?_escape h' text'] at hread
  obtain ⟨rfl, rfl⟩ := Prod.mk.inj (Option.some.inj hread)
  exact ⟨rfl, rfl⟩

/-! ## The strings of a program -/

theorem expression_string (table : FunctionTable) (content : String) :
    expression table (.string content) =
      .ok ("string_value(\"".toList ++ escape content.toList ++
        "\")".toList) := by
  simp [expression, application, commaList, Text.join, quote]

/--
A string of a program becomes a literal that is read back as the string exactly
if no NUL of the string has an octal digit behind it.  Strings of this kind
never share a literal.
-/
theorem literal_keeps_content_iff (table : FunctionTable) :
    (∀ content : String,
      expression table (.string content) =
        .ok ("string_value(\"".toList ++ escape content.toList ++
          "\")".toList) ∧
      (read? (escape content.toList ++ ['"']) = some (content.toList, []) ↔
        NulsApart content.toList)) ∧
    ∀ first second : String,
      NulsApart first.toList → NulsApart second.toList →
      expression table (.string first) = expression table (.string second) →
      first = second := by
  constructor
  · intro content
    refine ⟨expression_string table content, ?_⟩
    rw [read?_escape_append]
    simpa using denoted_eq_self_iff
  · intro first second hfirst hsecond h
    have hquote : quote first.toList = quote second.toList := by
      rw [expression_string, expression_string] at h
      simpa [quote] using h
    have hcontent := (quote_append_inj hfirst hsecond
      (congrArg (· ++ []) hquote)).1
    exact String.toList_inj.1 hcontent

/-- A NUL in front of a digit that is not octal, and of an escape. -/
theorem literal_keeps_content_iff_nul :
    read? (escape "\x008\x00\x01\"".toList ++ ['"']) =
      some ("\x008\x00\x01\"".toList, []) ∧
    expression [] (.string "\x00") ≠ expression [] (.string "\x00\x00") := by
  obtain ⟨hkept, hdistinct⟩ := literal_keeps_content_iff []
  constructor
  · refine (hkept "\x008\x00\x01\"").2.2 ?_
    simp [NulsApart, isOctalDigit]
  · intro h
    have hsame := hdistinct "\x00" "\x00\x00" (by simp [NulsApart])
      (by simp [NulsApart, isOctalDigit]) h
    exact absurd hsame (by decide)

/-- A NUL in front of an octal digit is read as another character, and two
strings share a literal. -/
theorem literal_of_nul_and_digit_not_kept :
    expression [] (.string "\x001") = .ok "string_value(\"\\01\")".toList ∧
    read? "\\01\"".toList = some (['\x01'], []) ∧
    expression [] (.string "\x0001") = expression [] (.string "\x01") := by
  refine ⟨rfl, ?_, rfl⟩
  have hchar : readChar? "\\01\"".toList = some ('\x01', ['"']) := by decide
  rw [read?_of_readChar? (by decide) hchar, read?_quote]
  rfl

end Lowering.Code.StringLiteral
