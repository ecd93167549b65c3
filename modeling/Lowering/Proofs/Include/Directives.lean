import Lowering.Code.Unit
import Lowering.Proofs.Include.Filtering
import Lowering.Proofs.Text.Spelling

/-!
# The form of include directives

A line is parsed from the left: blanks are skipped, a fixed text is taken off,
and in the end a name is cut off at its closing mark.  Each of these steps
undoes one part of the form that a directive has when it is written down, and
each part ends at a place that the line itself shows: blanks at the first
character that is none, a name at the first closing mark.  So the parser accepts
the lines of this form and no others, and there is one way only to take such a
line apart.

## Main results

* `skipBlanks_eq_iff`, `after?_eq_some_iff`, `target?_eq_some_iff` — what the
  single steps accept.
* `parse?_eq_some_iff` — what the parser accepts.
* `Directive.eq_of_line` — a directive is taken apart in one way only.
* `directives_decide_filtering` — the form of directives, and what it means for
  filtering.
-/

namespace Lowering

/-! ## The single steps -/

namespace Text

/-- Blanks end at the first character that is not blank. -/
theorem skipBlanks_eq_iff {text rest : Text} (hrest : StopsAt isBlank rest) :
    skipBlanks text = rest ↔
      ∃ blanks : Text, blanks.all isBlank = true ∧ text = blanks ++ rest := by
  constructor
  · rintro rfl
    refine ⟨text.takeWhile isBlank, List.all_takeWhile, ?_⟩
    exact List.takeWhile_append_dropWhile.symm
  · rintro ⟨blanks, hblanks, rfl⟩
    rw [skipBlanks, List.dropWhile_append_of_pos (List.all_eq_true.1 hblanks)]
    cases rest with
    | nil => rfl
    | cons c rest =>
        exact List.dropWhile_cons_of_neg (by simp [hrest c rfl])

theorem after?_eq_some_iff {beginning text rest : Text} :
    after? beginning text = some rest ↔ text = beginning ++ rest := by
  unfold after?
  split
  · rename_i hprefix
    obtain ⟨tail, rfl⟩ := List.isPrefixOf_iff_prefix.1 hprefix
    simp
  · rename_i hprefix
    constructor
    · intro h
      cases h
    · rintro rfl
      exact absurd (List.isPrefixOf_iff_prefix.2 (List.prefix_append _ _)) hprefix

end Text

namespace Include

/-- A name ends at the first closing mark. -/
theorem takeWhile_ne_append {close : Char} {name : Text} (h : close ∉ name)
    (rest : Text) :
    (name ++ close :: rest).takeWhile (· ≠ close) = name := by
  have hname : ∀ c ∈ name, decide (c ≠ close) = true := by
    intro c hc
    rw [decide_eq_true_eq]
    rintro rfl
    exact h hc
  rw [List.takeWhile_append_of_pos hname, List.takeWhile_cons_of_neg (by simp),
    List.append_nil]

theorem delimited?_eq_some_iff {close : Char} {text name : Text} :
    delimited? close text = some name ↔
      close ∉ name ∧ ∃ rest, text = name ++ close :: rest := by
  constructor
  · intro h
    obtain ⟨hmem, hname⟩ := Option.ite_none_right_eq_some.1 h
    obtain ⟨front, rest, rfl, hfront⟩ := List.eq_append_cons_of_mem hmem
    rw [takeWhile_ne_append hfront] at hname
    obtain rfl := Option.some.inj hname
    exact ⟨hfront, rest, rfl⟩
  · rintro ⟨hclose, rest, rfl⟩
    rw [delimited?, if_pos (by simp), takeWhile_ne_append hclose]

/-! ## Directives -/

/-- The marks around the name. -/
def opening : Include → Char
  | .quoted _ => '"'
  | .angled _ => '<'

def closing : Include → Char
  | .quoted _ => '"'
  | .angled _ => '>'

def name : Include → Text
  | .quoted name => name
  | .angled name => name

theorem target?_eq_some_iff {text : Text} {target : Include} :
    target? text = some target ↔
      target.closing ∉ target.name ∧
        ∃ rest,
          text = target.opening :: (target.name ++ target.closing :: rest) := by
  constructor
  · intro h
    unfold target? at h
    split at h
    · obtain ⟨name, hname, rfl⟩ := Option.map_eq_some_iff.1 h
      obtain ⟨hclose, rest, rfl⟩ := delimited?_eq_some_iff.1 hname
      exact ⟨hclose, rest, rfl⟩
    · obtain ⟨name, hname, rfl⟩ := Option.map_eq_some_iff.1 h
      obtain ⟨hclose, rest, rfl⟩ := delimited?_eq_some_iff.1 hname
      exact ⟨hclose, rest, rfl⟩
    · cases h
  · rintro ⟨hclose, rest, rfl⟩
    cases target with
    | quoted name =>
        have hname : delimited? '"' (name ++ '"' :: rest) = some name :=
          delimited?_eq_some_iff.2 ⟨hclose, rest, rfl⟩
        exact congrArg (Option.map Include.quoted) hname
    | angled name =>
        have hname : delimited? '>' (name ++ '>' :: rest) = some name :=
          delimited?_eq_some_iff.2 ⟨hclose, rest, rfl⟩
        exact congrArg (Option.map Include.angled) hname

/-- A line taken apart as a directive. -/
structure Directive (line : Text) where
  /-- The blanks in front of the hash. -/
  before : Text
  /-- The blanks between the hash and the word. -/
  between : Text
  /-- The blanks behind the word. -/
  behind : Text
  target : Include
  /-- What does not count. -/
  rest : Text
  blank_before : before.all Text.isBlank = true
  blank_between : between.all Text.isBlank = true
  blank_behind : behind.all Text.isBlank = true
  closing_not_mem : target.closing ∉ target.name
  line_eq : line = before ++ '#' :: between ++ "include".toList ++ behind ++
    target.opening :: target.name ++ target.closing :: rest

/-- The parts, from left to right. -/
theorem Directive.line_eq_append {line : Text} (d : Directive line) :
    line = d.before ++ '#' :: (d.between ++ ("include".toList ++ (d.behind ++
      d.target.opening :: (d.target.name ++ d.target.closing :: d.rest)))) := by
  have hline := d.line_eq
  simp only [List.append_assoc, List.cons_append] at hline
  exact hline

/-! ## What the parser accepts -/

theorem stopsAt_hash (rest : Text) :
    Text.StopsAt Text.isBlank ('#' :: rest) :=
  Text.stopsAt_cons (by decide) rest

theorem stopsAt_word (rest : Text) :
    Text.StopsAt Text.isBlank ("include".toList ++ rest) := by
  have hword : "include".toList = 'i' :: "nclude".toList := rfl
  rw [hword, List.cons_append]
  exact Text.stopsAt_cons (by decide) _

theorem stopsAt_opening (target : Include) (rest : Text) :
    Text.StopsAt Text.isBlank (target.opening :: rest) := by
  have hopening : Text.isBlank target.opening = false := by
    cases target <;> rfl
  exact Text.stopsAt_cons hopening rest

/-- What the parser looks for, step by step. -/
theorem parse?_eq_some_iff_steps {line : Text} {target : Include} :
    parse? line = some target ↔
      ∃ afterHash afterWord : Text,
        Text.skipBlanks line = '#' :: afterHash ∧
        Text.skipBlanks afterHash = "include".toList ++ afterWord ∧
        target? (Text.skipBlanks afterWord) = some target := by
  simp only [parse?, Option.bind_eq_bind, Option.bind_eq_some_iff,
    Text.after?_eq_some_iff, List.singleton_append, exists_and_left]

theorem parse?_eq_some_iff {line : Text} {target : Include} :
    parse? line = some target ↔ ∃ d : Directive line, d.target = target := by
  rw [parse?_eq_some_iff_steps]
  constructor
  · rintro ⟨afterHash, afterWord, hhash, hword, htarget⟩
    obtain ⟨hclose, rest, hname⟩ := target?_eq_some_iff.1 htarget
    obtain ⟨before, hbefore, rfl⟩ :=
      (Text.skipBlanks_eq_iff (stopsAt_hash _)).1 hhash
    obtain ⟨between, hbetween, rfl⟩ :=
      (Text.skipBlanks_eq_iff (stopsAt_word _)).1 hword
    obtain ⟨behind, hbehind, rfl⟩ :=
      (Text.skipBlanks_eq_iff (stopsAt_opening target _)).1 hname
    refine ⟨⟨before, between, behind, target, rest, hbefore, hbetween, hbehind,
      hclose, ?_⟩, rfl⟩
    simp only [List.append_assoc, List.cons_append]
  · rintro ⟨d, rfl⟩
    refine ⟨_, _,
      (Text.skipBlanks_eq_iff (stopsAt_hash _)).2
        ⟨d.before, d.blank_before, d.line_eq_append⟩,
      (Text.skipBlanks_eq_iff (stopsAt_word _)).2
        ⟨d.between, d.blank_between, rfl⟩, ?_⟩
    rw [(Text.skipBlanks_eq_iff (stopsAt_opening d.target _)).2
      ⟨d.behind, d.blank_behind, rfl⟩]
    exact target?_eq_some_iff.2 ⟨d.closing_not_mem, d.rest, rfl⟩

/-- Each part ends at a place that the line shows, so there is no choice. -/
theorem Directive.eq_of_line {line : Text} (d e : Directive line) : d = e := by
  have hlines := d.line_eq_append.symm.trans e.line_eq_append
  obtain ⟨hbefore, hhash⟩ := Text.append_inj_of_stopsAt d.blank_before
    e.blank_before (stopsAt_hash _) (stopsAt_hash _) hlines
  obtain ⟨hbetween, hword⟩ := Text.append_inj_of_stopsAt d.blank_between
    e.blank_between (stopsAt_word _) (stopsAt_word _) (List.cons.inj hhash).2
  obtain ⟨hbehind, hopening⟩ := Text.append_inj_of_stopsAt d.blank_behind
    e.blank_behind (stopsAt_opening _ _) (stopsAt_opening _ _)
    (List.append_cancel_left hword)
  -- Where the name ends depends on the marks around it.  That these are the same
  -- is known from the parser, which finds one target only.
  have htarget : d.target = e.target := by
    have hd := parse?_eq_some_iff.2 ⟨d, rfl⟩
    rw [parse?_eq_some_iff.2 ⟨e, rfl⟩] at hd
    exact (Option.some.inj hd).symm
  rw [htarget] at hopening
  have hrest : d.rest = e.rest :=
    (List.cons.inj (List.append_cancel_left (List.cons.inj hopening).2)).2
  cases d
  cases e
  congr

/-! ## Lines that are dropped -/

theorem isRedundant_eq_true_iff {provided : List Text} {line : Text} :
    isRedundant provided line = true ↔
      ∃ d : Directive line, ∃ name ∈ provided, d.target = .quoted name := by
  unfold isRedundant
  split
  · rename_i name hparse
    obtain ⟨d, hd⟩ := parse?_eq_some_iff.1 hparse
    rw [List.contains_iff_mem]
    constructor
    · intro hname
      exact ⟨d, name, hname, hd⟩
    · rintro ⟨e, other, hother, he⟩
      obtain rfl := d.eq_of_line e
      rw [hd] at he
      exact Include.quoted.inj he ▸ hother
  · rename_i hparse
    constructor
    · intro h
      cases h
    · rintro ⟨d, name, -, hd⟩
      exact absurd (parse?_eq_some_iff.2 ⟨d, hd⟩) (hparse name)

/-- The line includes, with quotes, one of the headers of the runtime. -/
def IncludesRuntime (line : Text) : Prop :=
  ∃ d : Directive line, d.target = .quoted "utils.h".toList ∨
    d.target = .quoted "value.h".toList

theorem isRedundant_providedHeaders_iff {line : Text} :
    isRedundant Code.providedHeaders line = true ↔ IncludesRuntime line := by
  have hheaders : Code.providedHeaders =
      ["utils.h".toList, "value.h".toList] := rfl
  rw [isRedundant_eq_true_iff, hheaders]
  simp only [List.mem_cons, List.not_mem_nil, or_false, exists_eq_or_imp,
    exists_eq_left, IncludesRuntime]

instance (line : Text) : Decidable (IncludesRuntime line) :=
  decidable_of_iff _ isRedundant_providedHeaders_iff

theorem keptLines_providedHeaders (text : Text) :
    keptLines Code.providedHeaders text =
      (Text.split '\n' text).filter fun line => ¬ IncludesRuntime line := by
  rw [keptLines]
  apply List.filter_congr
  intro line _
  rw [Bool.eq_iff_iff]
  simp [← isRedundant_providedHeaders_iff]

theorem filter_filter (provided : List Text) (text : Text) :
    filter provided (filter provided text) = filter provided text :=
  filter_eq_self_iff.2 fun _ => isRedundant_of_mem_filter

/--
A line is parsed as a directive exactly if it has the form of one, and then its
parts are determined.  Filtering for a unit drops the lines that include a
header of the runtime with quotes.  All others stay as they are, in order; if
there are none, nothing is left.  Filtering again changes nothing.
-/
theorem directives_decide_filtering :
    (∀ (line : Text) (target : Include),
      parse? line = some target ↔ ∃ d : Directive line, d.target = target) ∧
    (∀ (line : Text) (d e : Directive line), d = e) ∧
    (∀ line : Text, parse? line = none ↔ ¬ Nonempty (Directive line)) ∧
    ∀ text : Text,
      let lines := Text.split '\n' text
      let kept := lines.filter fun line => ¬ IncludesRuntime line
      let filtered := filter Code.providedHeaders text
      Text.join ['\n'] lines = text ∧ (∀ line ∈ lines, '\n' ∉ line) ∧
      filtered = Text.join ['\n'] kept ∧
      (kept = [] → filtered = []) ∧
      (kept ≠ [] → Text.split '\n' filtered = kept) ∧
      filter Code.providedHeaders filtered = filtered := by
  refine ⟨fun _ _ => parse?_eq_some_iff, fun _ => Directive.eq_of_line, ?_, ?_⟩
  · intro line
    rw [Option.eq_none_iff_forall_ne_some]
    constructor
    · rintro h ⟨d⟩
      exact h d.target (parse?_eq_some_iff.2 ⟨d, rfl⟩)
    · intro h target hparse
      obtain ⟨d, -⟩ := parse?_eq_some_iff.1 hparse
      exact h ⟨d⟩
  · intro text lines kept filtered
    have hkept : keptLines Code.providedHeaders text = kept :=
      keptLines_providedHeaders text
    have hjoin : filtered = Text.join ['\n'] kept := by
      rw [← hkept]
      rfl
    refine ⟨Text.join_split '\n' text, fun _ => Text.not_mem_of_mem_split, hjoin,
      ?_, ?_, filter_filter _ text⟩
    · intro hnil
      rw [hjoin, hnil]
      rfl
    · intro hne
      rw [split_filter, hkept, Text.orBlank_of_ne_nil hne]

/-- Blanks of several kinds, a comment behind the name, and names that are not
dropped.  The second text has nothing to keep. -/
theorem directives_decide_filtering_blanks :
    (let filtered := filter Code.providedHeaders
      ("#include \"value.h\" // runtime\n\u2003# include<value.h>\n".toList ++
        "\t#\u00a0include\"utils.h\"\n#include \"utils.h \"".toList)
    Text.split '\n' filtered =
      ["\u2003# include<value.h>".toList, "#include \"utils.h \"".toList] ∧
    filter Code.providedHeaders filtered = filtered) ∧
    filter Code.providedHeaders
      "#include \"utils.h\"\n#include \"value.h\"".toList = [] := by
  obtain ⟨-, -, -, hfilter⟩ := directives_decide_filtering
  refine ⟨?_, ?_⟩
  · obtain ⟨-, -, -, -, hlines, hagain⟩ := hfilter _
    exact ⟨(hlines (by decide +kernel)).trans (by decide +kernel), hagain⟩
  · obtain ⟨-, -, -, hnil, -, -⟩ := hfilter _
    exact hnil (by decide +kernel)

end Include

end Lowering
