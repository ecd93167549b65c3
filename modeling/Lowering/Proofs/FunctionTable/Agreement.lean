import Lowering.FunctionTable

/-!
# Tables that answer alike

Lowering asks a table one question: how many arguments does the function of
this name take, if there is such a function?  `arity?` is that question.  Two
tables agree when they answer it alike for every name, whatever else they hold:
entries that are never found, another order, other flags.  A table that grows
keeps its answers and may learn new names.

Everything here rests on the first match being a left-biased choice
(`arity?_append`): entries further back matter only for names that the front
does not know.

## Main results

* `Agree.of_taken` — an entry whose name stands further to the front has no
  say.
* `Agree.of_perm` — entries may be reordered if those of equal name have equal
  arity.
* `Program.grows_append` — more definitions add names and change none.
-/

namespace Lowering

namespace FunctionTable

/-- How many arguments a call of this name has to give at least, if the name is
known. -/
def arity? (table : FunctionTable) (name : String) : Option Nat :=
  (table.lookup? name).map Signature.arity

theorem lookup?_append (front back : FunctionTable) (name : String) :
    lookup? (front ++ back) name =
      (front.lookup? name).or (back.lookup? name) :=
  List.find?_append

theorem arity?_append (front back : FunctionTable) (name : String) :
    arity? (front ++ back) name = (front.arity? name).or (back.arity? name) := by
  rw [arity?, lookup?_append, Option.map_or, arity?, arity?]

theorem arity?_cons (signature : Signature) (table : FunctionTable)
    (name : String) :
    arity? (signature :: table) name =
      if signature.name = name then some signature.arity
      else table.arity? name := by
  simp only [arity?, lookup?, List.find?_cons]
  by_cases h : signature.name = name <;> simp [h]

theorem arity?_eq_none_iff {table : FunctionTable} {name : String} :
    table.arity? name = none ↔ ∀ signature ∈ table, signature.name ≠ name := by
  simp [arity?, lookup?]

theorem mem_of_lookup? {table : FunctionTable} {name : String}
    {signature : Signature} (h : table.lookup? name = some signature) :
    signature ∈ table ∧ signature.name = name := by
  have hname := List.find?_some h
  exact ⟨List.mem_of_find?_eq_some h, by simpa using hname⟩

/-! ## Agreement -/

/-- The tables give every name the same arity, or both give it none. -/
def Agree (t u : FunctionTable) : Prop :=
  ∀ name, t.arity? name = u.arity? name

theorem Agree.symm {t u : FunctionTable} (h : Agree t u) : Agree u t :=
  fun name => (h name).symm

theorem Agree.trans {t u v : FunctionTable} (htu : Agree t u)
    (huv : Agree u v) : Agree t v :=
  fun name => (htu name).trans (huv name)

theorem Agree.append_left (front : FunctionTable) {t u : FunctionTable}
    (h : Agree t u) : Agree (front ++ t) (front ++ u) := by
  intro name
  rw [arity?_append, arity?_append, h name]

theorem Agree.of_taken {front : FunctionTable} {signature : Signature}
    (h : ∃ taken ∈ front, taken.name = signature.name) (back : FunctionTable) :
    Agree (front ++ signature :: back) (front ++ back) := by
  intro name
  rw [arity?_append, arity?_append, arity?_cons]
  by_cases hname : signature.name = name
  · obtain ⟨taken, hmem, htaken⟩ := h
    cases harity : front.arity? name with
    | none =>
        exact absurd (htaken.trans hname)
          (arity?_eq_none_iff.1 harity taken hmem)
    | some arity => rfl
  · rw [if_neg hname]

/-- With one arity for each name it does not matter which entry is found. -/
theorem arity?_eq_some_iff_of_coherent {table : FunctionTable}
    (h : ∀ s ∈ table, ∀ s' ∈ table, s.name = s'.name → s.arity = s'.arity)
    (name : String) (arity : Nat) :
    table.arity? name = some arity ↔
      ∃ s ∈ table, s.name = name ∧ s.arity = arity := by
  constructor
  · intro harity
    obtain ⟨s, hs, rfl⟩ := Option.map_eq_some_iff.1 harity
    obtain ⟨hmem, hname⟩ := mem_of_lookup? hs
    exact ⟨s, hmem, hname, rfl⟩
  · rintro ⟨s, hs, rfl, rfl⟩
    cases hfound : table.arity? s.name with
    | none => exact absurd rfl (arity?_eq_none_iff.1 hfound s hs)
    | some arity =>
        obtain ⟨found, hlookup, rfl⟩ := Option.map_eq_some_iff.1 hfound
        obtain ⟨hmem, hname⟩ := mem_of_lookup? hlookup
        rw [h found hmem s hs hname]

theorem Agree.of_perm {t u : FunctionTable} (hperm : t.Perm u)
    (h : ∀ s ∈ t, ∀ s' ∈ t, s.name = s'.name → s.arity = s'.arity) :
    Agree t u := by
  have hu : ∀ s ∈ u, ∀ s' ∈ u, s.name = s'.name → s.arity = s'.arity :=
    fun s hs s' hs' => h s (hperm.mem_iff.2 hs) s' (hperm.mem_iff.2 hs')
  intro name
  apply Option.ext
  intro arity
  rw [arity?_eq_some_iff_of_coherent h, arity?_eq_some_iff_of_coherent hu]
  simp only [hperm.mem_iff]

/-! ## Growth -/

/-- The second table knows what the first knows, and besides at most names that
are new. -/
def Grows (new : String → Prop) (t u : FunctionTable) : Prop :=
  ∀ name, u.arity? name = t.arity? name ∨ t.arity? name = none ∧ new name

theorem Agree.grows {t u : FunctionTable} (h : Agree t u) :
    Grows (fun _ => False) t u :=
  fun name => .inl (h name).symm

theorem grows_append (t more : FunctionTable) :
    Grows (fun name => ∃ s ∈ more, s.name = name) t (t ++ more) := by
  intro name
  rw [arity?_append]
  cases t.arity? name with
  | some arity => exact .inl rfl
  | none =>
      by_cases hnew : ∃ s ∈ more, s.name = name
      · exact .inr ⟨rfl, hnew⟩
      · have hnone : more.arity? name = none :=
          arity?_eq_none_iff.2 fun s hs hname => hnew ⟨s, hs, hname⟩
        exact .inl (by rw [Option.none_or, hnone])

/-! ## Tables of programs -/

theorem ofProgram_append (p q : Program) :
    ofProgram (p ++ q) = ofProgram p ++ q.map Definition.signature := by
  simp [ofProgram, build]

theorem ofUser_ofProgram (p : Program) :
    (ofProgram p).ofUser = p.map Definition.signature := by
  have hprogram : ((p.map Definition.signature).filter
      fun signature => signature.userDefined) = p.map Definition.signature := by
    simp [Definition.signature]
  rw [ofProgram, build, ofUser, List.filter_append, hprogram]
  rfl

/-- The names that are taken once the program stands in the table. -/
theorem exists_mem_ofProgram {p : Program} {name : String}
    (h : (∃ arity, (name, arity) ∈ runtimeFunctions) ∨
      ∃ d ∈ p, d.name.text = name) :
    ∃ signature ∈ ofProgram p, signature.name = name := by
  rcases h with ⟨arity, hmem⟩ | ⟨d, hd, rfl⟩
  · exact ⟨_, List.mem_append_left _ (List.mem_map_of_mem hmem), rfl⟩
  · exact ⟨_, List.mem_append_right _ (List.mem_map_of_mem hd), rfl⟩

end FunctionTable

namespace Program

open FunctionTable

theorem grows_append (p more : Program) :
    Grows (fun name => ∃ d ∈ more, d.name.text = name)
      (ofProgram p) (ofProgram (p ++ more)) := by
  intro name
  rw [ofProgram_append]
  refine (FunctionTable.grows_append _ _ name).imp_right fun ⟨hnone, hnew⟩ => ?_
  obtain ⟨_, hmem, hname⟩ := hnew
  obtain ⟨d, hd, rfl⟩ := List.mem_map.1 hmem
  exact ⟨hnone, d, hd, hname⟩

/-- A definition that takes a name already taken is never found. -/
theorem agree_insert {before : Program} {d : Definition}
    (h : (∃ arity, (d.name.text, arity) ∈ runtimeFunctions) ∨
      ∃ earlier ∈ before, earlier.name.text = d.name.text) (after : Program) :
    Agree (ofProgram (before ++ d :: after)) (ofProgram (before ++ after)) := by
  rw [ofProgram_append, ofProgram_append, List.map_cons]
  exact Agree.of_taken (exists_mem_ofProgram h) _

theorem agree_of_perm {p q : Program} (hperm : p.Perm q)
    (h : ∀ d ∈ p, ∀ e ∈ p, d.name.text = e.name.text → d.arity = e.arity) :
    Agree (ofProgram p) (ofProgram q) := by
  have hcoherent : ∀ s ∈ p.map Definition.signature,
      ∀ s' ∈ p.map Definition.signature,
        s.name = s'.name → s.arity = s'.arity := by
    simp only [List.forall_mem_map]
    exact h
  exact (Agree.of_perm (hperm.map Definition.signature) hcoherent).append_left _

end Program

end Lowering
