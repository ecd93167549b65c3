import Lowering.File.Store

/-!
# Replacing a file

What writing does to a store, and what is read from it afterwards.  A path that
can be written leads to a location that is no directory.  The locations on the
way to it are directories, so none of them is changed by putting a file at the
end: the path leads to the same place as before, and the file is found there.

Whether a path can be written is decided before anything is changed, and
`writeFault?` says it in one place.  There is no third case: either the store
stays as it is, or the one file is replaced.

## Main results

* `Store.Replaces.find_eq` — a file that was replaced is found under its path.
* `Store.write_of_writeFault?_eq_some` — a write that is refused changes
  nothing.
* `Store.write_of_writeFault?_eq_none` — any other write replaces the file.
-/

namespace Lowering.Store

/-! ## Paths in a store with one location changed -/

/-- A step is taken from a directory, and its name is not too long. -/
theorem walk_cons_eq_ok_iff {store : Store} {start location : Location}
    {step : String} {steps : List String} :
    store.walk start (step :: steps) = .ok location ↔
      store.node? start = some .directory ∧
        step.utf8ByteSize ≤ Path.maxStep ∧
        store.walk (advance start step) steps = .ok location := by
  rw [walk]
  cases hnode : store.node? start with
  | none => simp
  | some node =>
      cases node with
      | directory =>
          by_cases hsize : step.utf8ByteSize ≤ Path.maxStep
          · simp [hsize]
          · simp [hsize]
      | file content => simp
      | fullDevice => simp

/-- What stands at the end of a way does not matter for following it, unless it
is a directory: the way never passes through it. -/
theorem walk_eq_of_agree {store after : Store} {start location : Location}
    {steps : List String}
    (hagree : ∀ other, other ≠ location →
      after.node? other = store.node? other)
    (hnode : store.node? location ≠ some .directory)
    (hwalk : store.walk start steps = .ok location) :
    after.walk start steps = .ok location := by
  induction steps generalizing start with
  | nil => exact hwalk
  | cons step steps ih =>
      rw [walk_cons_eq_ok_iff] at hwalk
      obtain ⟨hstart, hsize, hrest⟩ := hwalk
      have hne : start ≠ location := by
        intro heq
        rw [heq] at hstart
        exact hnode hstart
      rw [walk_cons_eq_ok_iff, hagree start hne]
      exact ⟨hstart, hsize, ih hrest⟩

theorem follow_eq_of_agree {store after : Store} {path : String}
    {steps : List String} {location : Location}
    (hhere : after.here = store.here)
    (hagree : ∀ other, other ≠ location →
      after.node? other = store.node? other)
    (hnode : store.node? location ≠ some .directory)
    (hfollow : store.follow path steps = .ok location) :
    after.follow path steps = .ok location := by
  unfold follow at hfollow ⊢
  by_cases hnul : path.toList.contains '\x00' = true
  · rw [if_pos hnul] at hfollow
    cases hfollow
  rw [if_neg hnul] at hfollow ⊢
  by_cases hempty : path = ""
  · rw [if_pos hempty] at hfollow
    cases hfollow
  rw [if_neg hempty] at hfollow ⊢
  by_cases hlength : Path.maxLength < path.utf8ByteSize
  · rw [if_pos hlength] at hfollow
    cases hfollow
  rw [if_neg hlength] at hfollow ⊢
  have hstart : after.startOf path = store.startOf path := by
    rw [startOf, hhere, startOf]
  rw [hstart]
  exact walk_eq_of_agree hagree hnode hfollow

theorem target_eq_ok_iff {store : Store} {path : String}
    {location : Location} :
    store.target path = .ok location ↔
      Path.endsInSlash path = false ∧ store.resolve path = .ok location ∧
        store.node? location ≠ some .directory := by
  unfold target
  cases hslash : Path.endsInSlash path with
  | true =>
      cases store.follow path ((Path.steps path).dropLast ++ ["."]) with
      | error fault => simp [bind, Except.bind]
      | ok other => simp [bind, Except.bind]
  | false =>
      cases store.resolve path with
      | error fault => simp [bind, Except.bind]
      | ok other =>
          by_cases hnode : store.node? other = some .directory
          · simp only [bind, Except.bind]
            grind
          · simp only [bind, Except.bind]
            grind

/-! ## Replaced files -/

/-- The store afterwards has a file with this content where the path leads to,
and is the same everywhere else. -/
def Replaces (store : Store) (path : String) (content : Bytes)
    (after : Store) : Prop :=
  ∃ location, store.target path = .ok location ∧
    after.here = store.here ∧
    after.node? location = some (.file content) ∧
    ∀ other, other ≠ location → after.node? other = store.node? other

namespace Replaces

variable {store after : Store} {path : String} {content : Bytes}

theorem find_eq (h : store.Replaces path content after) :
    after.find path = .ok (.file content) := by
  obtain ⟨location, htarget, hhere, hfile, hagree⟩ := h
  rw [target_eq_ok_iff] at htarget
  obtain ⟨hslash, hresolve, hnode⟩ := htarget
  have hresolved : after.resolve path = .ok location :=
    follow_eq_of_agree hhere hagree hnode hresolve
  simp [find, hresolved, hfile, hslash, bind, Except.bind]

theorem read_eq (h : store.Replaces path content after) :
    after.read path = .ok content := by
  rw [read, h.find_eq]
  rfl

end Replaces

/-! ## Writing -/

theorem create_eq_of_target_eq_ok {store : Store} {path : String}
    {location : Location} (h : store.target path = .ok location) :
    store.create path =
      (.ok location,
        if store.node? location = some .fullDevice then store
        else store.put location (.file [])) := by
  rw [create, h]
  by_cases hdevice : store.node? location = some .fullDevice
  · simp [hdevice]
  · simp [hdevice]

/-- A file that was created is replaced by whatever is filled into it. -/
theorem replaces_fill_of_create {store created : Store} {path : String}
    {location : Location} (h : store.create path = (.ok location, created))
    (hdevice : store.node? location ≠ some .fullDevice) (content : Bytes) :
    (created.fill location content).1 = .ok () ∧
      store.Replaces path content (created.fill location content).2 := by
  have htarget : store.target path = .ok location := by
    rw [create] at h
    cases hpath : store.target path with
    | error fault => simp [hpath] at h
    | ok other =>
        simp only [hpath] at h
        split at h <;> cases h <;> rfl
  rw [create_eq_of_target_eq_ok htarget, if_neg hdevice] at h
  obtain ⟨-, rfl⟩ := Prod.mk.inj h
  have hfill : (store.put location (.file [])).fill location content =
      (.ok (), (store.put location (.file [])).put location (.file content)) := by
    simp [fill]
  rw [hfill]
  refine ⟨rfl, location, htarget, rfl, by simp, ?_⟩
  intro other hother
  simp [hother]

/-- Why no file can be created or replaced under a path, if so.  The device can
be opened but takes no content. -/
def writeFault? (store : Store) (path : String) : Option FileFault :=
  match store.target path with
  | .error fault => some fault
  | .ok location =>
      if store.node? location = some .fullDevice then some .noSpace else none

theorem writeFault?_eq_none_iff {store : Store} {path : String} :
    store.writeFault? path = none ↔
      ∃ location, store.target path = .ok location ∧
        store.node? location ≠ some .fullDevice := by
  unfold writeFault?
  cases store.target path with
  | error fault => simp
  | ok location => simp

theorem write_of_writeFault?_eq_some {store : Store} {path : String}
    {content : Bytes} {fault : FileFault}
    (h : store.writeFault? path = some fault) (hcontent : content ≠ []) :
    store.write path content = (.error fault, store) := by
  unfold writeFault? at h
  cases htarget : store.target path with
  | error other =>
      rw [htarget] at h
      cases h
      rw [write, create, htarget]
  | ok location =>
      rw [htarget] at h
      by_cases hdevice : store.node? location = some .fullDevice
      · simp only [hdevice, if_true] at h
        cases h
        rw [write, create_eq_of_target_eq_ok htarget, if_pos hdevice]
        show store.fill location content = (.error .noSpace, store)
        rw [fill, if_pos hdevice, if_neg hcontent]
      · simp [hdevice] at h

theorem write_of_writeFault?_eq_none {store : Store} {path : String}
    (h : store.writeFault? path = none) (content : Bytes) :
    (store.write path content).1 = .ok () ∧
      store.Replaces path content (store.write path content).2 := by
  obtain ⟨location, htarget, hdevice⟩ := writeFault?_eq_none_iff.mp h
  have hcreate := create_eq_of_target_eq_ok htarget
  rw [write, hcreate]
  exact replaces_fill_of_create hcreate hdevice content

end Lowering.Store
