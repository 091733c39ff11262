import Quadrature.Proofs.Json.Document
import Quadrature.Proofs.Json.Record

/-!
# Values in documents

`Document.Restores` says that a value is read from the document that is written for it. Texts
are, counts of 64 bits are, doubles are as far as their numbers read back, and then so are
optional values, lists and records of them. What is read from a document of any origin is a
finite double or a count of 64 bits again.
-/

namespace Quadrature

namespace Document

variable {β : Type} {write : β → Document} {read : Document → Option β}

/-- The document of a value can be put in writing and is read as the value. Null is kept for
the absence of one. -/
structure Restores (write : β → Document) (read : Document → Option β) (x : β) : Prop where
  written : (write x).IsWritten
  ne_null : write x ≠ null
  read : read (write x) = some x

theorem restores_string (s : String) : Restores ofString toString? s where
  written := .string s
  ne_null := nofun
  read := rfl

theorem restores_bool (b : Bool) : Restores bool toBool? b where
  written := .bool b
  ne_null := nofun
  read := rfl

theorem restores_nat {n : Nat} (h : n < UInt64.size) : Restores ofNat (toNat? UInt64.size) n where
  written := .number (JsonNumber.isStrict_ofNat n)
  ne_null := nofun
  read := by
    rw [ofNat, toNat?, JsonNumber.toNat?_ofNat h, Option.filter_some, if_pos (decide_eq_true h)]

theorem restores_float {x : Float} (hx : x.isFinite = true) (h : JsonNumber.ReadsBack x) :
    Restores ofFloat toFloat? x := by
  have hnumber : ofFloat x = number (.ofFloat x) := if_pos hx
  constructor
  · rw [hnumber]
    exact .number (JsonNumber.isStrict_ofFloat hx)
  · rw [hnumber]
    exact nofun
  · rw [hnumber]
    exact h

/-- A value that is read from a text. -/
theorem restores_text {text : β → String} {ofText? : String → Option β} {x : β}
    (h : ofText? (text x) = some x) :
    Restores (fun x => ofString (text x)) (fun d => d.toString?.bind ofText?) x where
  written := .string _
  ne_null := nofun
  read := h

/-! ## Optional values and lists -/

theorem isWritten_ofOption {o : Option β} (h : ∀ x ∈ o, Restores write read x) :
    (ofOption write o).IsWritten := by
  cases o with
  | none => exact .null
  | some x => exact (h x rfl).written

theorem toOption?_of_ne_null {d : Document} (h : d ≠ null) :
    d.toOption? read = (read d).map some := by
  cases d <;> first | rfl | exact absurd rfl h

theorem toOption?_ofOption {o : Option β} (h : ∀ x ∈ o, Restores write read x) :
    (ofOption write o).toOption? read = some o := by
  cases o with
  | none => rfl
  | some x => rw [ofOption, toOption?_of_ne_null (h x rfl).ne_null, (h x rfl).read]; rfl

theorem restores_list {xs : List β} (h : ∀ x ∈ xs, Restores write read x) :
    Restores (ofList write) (toList? read) xs where
  written := .array fun d hd => by
    obtain ⟨x, hx, rfl⟩ := List.mem_map.1 hd
    exact (h x hx).written
  ne_null := nofun
  read := by
    rw [ofList, toList?, mapM_eq_some, List.forall₂_map_left_iff, List.forall₂_same]
    exact fun x hx => (h x hx).read

/-! ## Records -/

theorem isWritten_ofMembers {members : List (String × Document)}
    (h : ∀ m ∈ members, m.2.IsWritten) : (ofMembers members).IsWritten := by
  refine .object (fun m hm => ?_) fun m hm => ?_
  · obtain ⟨n, -, rfl⟩ := List.mem_map.1 hm
    rfl
  · obtain ⟨n, hn, rfl⟩ := List.mem_map.1 hm
    exact h n hn

/-! ## What is read -/

theorem isFinite_of_toFloat? {d : Document} {x : Float} (h : d.toFloat? = some x) :
    x.isFinite = true := by
  cases d with
  | number n => exact JsonNumber.isFinite_toFloat? h
  | _ => cases h

theorem lt_of_toNat? {limit n : Nat} {d : Document} (h : d.toNat? limit = some n) : n < limit := by
  cases d with
  | number m => exact of_decide_eq_true (Option.filter_eq_some_iff.1 h).2
  | _ => cases h

theorem exists_of_toList? {d : Document} {xs : List β} {x : β} (h : d.toList? read = some xs)
    (hx : x ∈ xs) : ∃ e, read e = some x := by
  cases d with
  | array es =>
    obtain ⟨e, -, he⟩ := exists_of_mem_mapM h hx
    exact ⟨e, he⟩
  | _ => cases h

end Document

end Quadrature
