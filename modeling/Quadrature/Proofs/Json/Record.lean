import Mathlib
import Quadrature.Json.Record

/-!
# Fields of records

What is found under a name in a record, whichever other names are looked for
(`Record.field?_object`); what a field that was read has been read from; and that a record
is found in the object that was made of its fields (`Record.ofDocument?_ofMembers`).
-/

namespace Quadrature

section Option

variable {β γ : Type} {f : β → Option γ} {xs : List β}

theorem mapM_eq_some {ys : List γ} :
    xs.mapM f = some ys ↔ List.Forall₂ (fun x y => f x = some y) xs ys := by
  induction xs generalizing ys with
  | nil => cases ys <;> simp
  | cons x xs ih =>
    rw [List.mapM_cons]
    cases hx : f x with
    | none => cases ys <;> simp [hx]
    | some y =>
      cases hs : xs.mapM f with
      | none => cases ys <;> simp [← ih, hs, hx]
      | some zs => cases ys <;> simp [← ih, hs, hx]

theorem exists_of_mem_mapM {ys : List γ} {y : γ} (h : xs.mapM f = some ys) (hy : y ∈ ys) :
    ∃ x ∈ xs, f x = some y := by
  replace h := mapM_eq_some.1 h
  induction h with
  | nil => cases hy
  | @cons x z xs zs hx _ ih =>
    rcases List.mem_cons.1 hy with rfl | hy
    · exact ⟨x, List.mem_cons_self, hx⟩
    · obtain ⟨w, hw, hf⟩ := ih hy
      exact ⟨w, List.mem_cons_of_mem x hw, hf⟩

end Option

namespace Document

/-- The value of the first member with a key. -/
def member? (name : String) : Document → Option Document
  | object ms => (ms.find? (·.1 == some name)).map Prod.snd
  | _ => none

end Document

namespace Record

variable {β : Type} {names : List String} {name : String} {d : Document} {r : Record}
  {item : Document → Option β}

/-! ## What a record holds -/

theorem field?_object {ms : List (Option String × Document)}
    (h : ofDocument? names (.object ms) = some r) (hname : name ∈ names) :
    r.field? name = (Document.object ms).member? name := by
  simp only [ofDocument?, Option.bind_eq_bind, Option.bind_eq_some_iff] at h
  obtain ⟨fields, hfields, h⟩ := h
  split at h
  · cases h
    have hms : List.Forall₂ Eq ms (fields.map fun f => (some f.1, f.2)) := by
      rw [List.forall₂_map_right_iff]
      refine (mapM_eq_some.1 hfields).imp fun m f hm => ?_
      obtain ⟨k, hk, rfl⟩ := Option.map_eq_some_iff.1 hm
      rw [← hk]
    rw [List.forall₂_eq_eq_eq] at hms
    have hfind : (fun f : String × Document => decide (names.contains f.1 = true ∧
        (f.1 == name) = true)) = fun f => f.1 == name := by
      funext f
      by_cases hf : f.1 = name <;> simp [hf, hname]
    rw [field?, List.find?_filter, hfind, Document.member?, hms, List.find?_map, Option.map_map]
    rfl
  · cases h

theorem ofDocument?_array {ds : List Document} (h : ofDocument? names (.array ds) = some r) :
    r = ⟨true, names.zip ds⟩ ∧ ds.length ≤ names.length := by
  rw [ofDocument?] at h
  split at h
  · next hle => cases h; exact ⟨rfl, hle⟩
  · cases h

/-! ## What a field was read from -/

theorem exists_of_required {x : β} (h : r.required name item = some x) :
    ∃ d, r.field? name = some d ∧ item d = some x :=
  Option.bind_eq_some_iff.1 h

theorem exists_of_optional {x : β} (h : r.optional name item = some (some x)) :
    ∃ d, item d = some x := by
  rw [optional] at h
  split at h
  · next d _ =>
    cases d with
    | null => cases h
    | _ =>
      obtain ⟨y, hy, hx⟩ := Option.map_eq_some_iff.1 h
      cases hx
      exact ⟨_, hy⟩
  · split at h <;> cases h

/-! ## The object of a record -/

/-- The fields of a record are found in the object that is made of them. -/
theorem ofDocument?_ofMembers {members : List (String × Document)}
    (hnames : ∀ m ∈ members, m.1 ∈ names) (hnodup : (members.map Prod.fst).Nodup) :
    ofDocument? names (.ofMembers members) = some ⟨false, members⟩ := by
  have hfields : (members.map fun m => (some m.1, m.2)).mapM
      (fun m : Option String × Document => m.1.map (·, m.2)) = some members := by
    rw [mapM_eq_some, List.forall₂_map_left_iff]
    exact List.forall₂_same.2 fun _ _ => rfl
  have hknown : members.filter (fun m => names.contains m.1) = members :=
    List.filter_eq_self.2 fun m hm => by simpa using hnames m hm
  have honce : ∀ name, (members.filter (·.1 == name)).length ≤ 1 := by
    intro name
    have hcount := List.nodup_iff_count_le_one.1 hnodup name
    rwa [List.count, List.countP_map, List.countP_eq_length_filter] at hcount
  rw [Document.ofMembers, ofDocument?]
  simp only [Option.bind_eq_bind]
  rw [hfields, Option.bind_some]
  simp only [hknown]
  rw [if_pos (List.all_eq_true.2 fun name _ => by simpa using honce name)]

theorem field?_of_mem {positional : Bool} {fields : List (String × Document)}
    (hnodup : (fields.map Prod.fst).Nodup) {f : String × Document} (hf : f ∈ fields) :
    (⟨positional, fields⟩ : Record).field? f.1 = some f.2 := by
  induction fields with
  | nil => cases hf
  | cons g fields ih =>
    obtain ⟨hnot, hnodup⟩ := List.nodup_cons.1 hnodup
    rcases List.mem_cons.1 hf with rfl | hf
    · simp [field?]
    · have hne : g.1 ≠ f.1 := fun h => hnot (h ▸ List.mem_map_of_mem hf)
      have hfield := ih hnodup hf
      simp only [field?] at hfield ⊢
      rwa [List.find?_cons_of_neg (by simpa using hne)]

/-- What is made of the record of an object in which each member is found. -/
theorem bind_ofMembers {members : List (String × Document)} {f : Record → Option β} {x : β}
    (hnames : ∀ m ∈ members, m.1 ∈ names) (hnodup : (members.map Prod.fst).Nodup)
    (h : ∀ r : Record, (∀ m ∈ members, r.field? m.1 = some m.2) → f r = some x) :
    (ofDocument? names (.ofMembers members) >>= f) = some x := by
  rw [ofDocument?_ofMembers hnames hnodup]
  exact h _ fun _ => field?_of_mem hnodup

theorem required_eq {d : Document} (h : r.field? name = some d) :
    r.required name item = item d := by
  rw [required, h]
  rfl

theorem optional_eq {d : Document} (h : r.field? name = some d) :
    r.optional name item = d.toOption? item := by
  rw [optional, h]

theorem withDefault_eq {d : Document} {default : β} (h : r.field? name = some d) :
    r.withDefault name default item = item d := by
  rw [withDefault, h]

end Record

end Quadrature
