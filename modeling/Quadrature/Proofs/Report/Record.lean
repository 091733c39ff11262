import Quadrature.Proofs.Analysis.Record
import Quadrature.Proofs.Engine.Acceptance
import Quadrature.Proofs.Report.Identifier
import Quadrature.Proofs.Report.Instant
import Quadrature.Report.Record

/-!
# Reports read back

A report whose instant exists, whose counts have 64 bits and whose numbers are restored is read
from its text with all fields it has there (`Report.ofJson?_json`). What is read from any text
is such a report as far as its numbers read back, and so are reports of calculations with finite
numbers; so reading a report and writing it again changes the text once at most.
-/

namespace Quadrature

open Document

namespace Report

/-- Every number of a report. -/
def numbers (r : Report) : List Float :=
  r.a :: r.b :: (r.exact.toList ++ r.results.flatMap RuleResult.numbers ++
    r.convergence.flatMap ConvergencePoint.numbers ++ r.samples.flatMap Point.numbers)

/-- What reports hold besides numbers. -/
structure IsRegular (r : Report) : Prop where
  createdAt : r.stamp.createdAt.IsValid
  panels : r.n < UInt64.size
  counts : ∀ p ∈ r.convergence, p.n < UInt64.size

variable {r : Report}

theorem mem_numbers {x : Float} : x ∈ r.numbers ↔ x = r.a ∨ x = r.b ∨ r.exact = some x ∨
    (∃ res ∈ r.results, x ∈ res.numbers) ∨ (∃ p ∈ r.convergence, x ∈ p.numbers) ∨
    ∃ p ∈ r.samples, x ∈ p.numbers := by
  simp only [numbers, List.mem_cons, List.mem_append, List.mem_flatMap, Option.mem_toList,
    or_assoc]

/-! ## Writing -/

theorem restores (hr : r.IsRegular) (h : ∀ x ∈ r.numbers, Restores ofFloat toFloat? x) :
    r.toDocument.IsWritten ∧
      ofDocument? r.toDocument = some { r with digits := Settings.default.digits } := by
  have hid : Restores (fun i : Identifier => ofString i.text)
      (fun d => d.toString?.bind Identifier.ofText?) r.stamp.id :=
    restores_text r.stamp.id.ofText?_text
  have hcreated : Restores (fun t : Instant => ofString t.text)
      (fun d => d.toString?.bind Instant.ofText?) r.stamp.createdAt :=
    restores_text (Instant.ofText?_text hr.createdAt)
  have hdescription : ∀ s ∈ r.description, Restores ofString toString? s :=
    fun s _ => restores_string s
  have ha := h r.a (mem_numbers.2 (.inl rfl))
  have hb := h r.b (mem_numbers.2 (.inr (.inl rfl)))
  have hn := restores_nat hr.panels
  have hexact : ∀ x ∈ r.exact, Restores ofFloat toFloat? x :=
    fun x hx => h x (mem_numbers.2 (.inr (.inr (.inl hx))))
  have hresults : Restores (ofList RuleResult.toDocument)
      (toList? RuleResult.ofDocument?) r.results :=
    restores_list fun res hres => RuleResult.restores fun x hx =>
      h x (mem_numbers.2 (.inr (.inr (.inr (.inl ⟨res, hres, hx⟩)))))
  have hconvergence : Restores (ofList ConvergencePoint.toDocument)
      (toList? ConvergencePoint.ofDocument?) r.convergence :=
    restores_list fun p hp => ConvergencePoint.restores (hr.counts p hp) fun x hx =>
      h x (mem_numbers.2 (.inr (.inr (.inr (.inr (.inl ⟨p, hp, hx⟩))))))
  have hsamples : Restores (ofList Point.toDocument) (toList? Point.ofDocument?) r.samples :=
    restores_list fun p hp => Point.restores fun x hx =>
      h x (mem_numbers.2 (.inr (.inr (.inr (.inr (.inr ⟨p, hp, hx⟩))))))
  constructor
  · refine isWritten_ofMembers ?_
    simp only [List.forall_mem_cons]
    exact ⟨hid.written, hcreated.written, (restores_string _).written, (restores_string _).written,
      isWritten_ofOption hdescription, ha.written, hb.written, hn.written,
      isWritten_ofOption hexact, hresults.written, hconvergence.written, hsamples.written, nofun⟩
  · rw [toDocument, ofDocument?]
    refine Record.bind_ofMembers (by simp) (by simp) fun fields hfields => ?_
    simp only [List.forall_mem_cons] at hfields
    obtain ⟨hfid, hfcreated, hflabel, hfnormalized, hfdescription, hfa, hfb, hfn, hfexact, hfresults,
      hfconvergence, hfsamples, -⟩ := hfields
    rw [Record.required_eq hfid, hid.read, Record.required_eq hfcreated, hcreated.read,
      Record.required_eq hflabel, Record.required_eq hfnormalized,
      Record.optional_eq hfdescription, toOption?_ofOption hdescription,
      Record.required_eq hfa, ha.read, Record.required_eq hfb, hb.read,
      Record.required_eq hfn, hn.read, Record.optional_eq hfexact, toOption?_ofOption hexact,
      Record.required_eq hfresults, hresults.read,
      Record.required_eq hfconvergence, hconvergence.read,
      Record.required_eq hfsamples, hsamples.read]
    rfl

theorem ofJson?_json (hr : r.IsRegular) (h : ∀ x ∈ r.numbers, Restores ofFloat toFloat? x) :
    ofJson? r.json = some { r with digits := Settings.default.digits } := by
  obtain ⟨hwritten, hread⟩ := restores hr h
  rw [ofJson?, json, indented, parse?_write hwritten, Option.bind_eq_bind, Option.bind_some]
  exact hread

/-! ## Reading -/

theorem of_ofDocument? {d : Document} (h : ofDocument? d = some r) :
    r.IsRegular ∧ (∀ x ∈ r.numbers, x.isFinite = true) ∧ r.digits = Settings.default.digits := by
  obtain ⟨fields, -, h⟩ := Option.bind_eq_some_iff.1 h
  obtain ⟨id, -, h⟩ := Option.bind_eq_some_iff.1 h
  obtain ⟨createdAt, hcreated, h⟩ := Option.bind_eq_some_iff.1 h
  obtain ⟨label, -, h⟩ := Option.bind_eq_some_iff.1 h
  obtain ⟨normalized, -, h⟩ := Option.bind_eq_some_iff.1 h
  obtain ⟨description, -, h⟩ := Option.bind_eq_some_iff.1 h
  obtain ⟨a, ha, h⟩ := Option.bind_eq_some_iff.1 h
  obtain ⟨b, hb, h⟩ := Option.bind_eq_some_iff.1 h
  obtain ⟨n, hn, h⟩ := Option.bind_eq_some_iff.1 h
  obtain ⟨exact, hexact, h⟩ := Option.bind_eq_some_iff.1 h
  obtain ⟨results, hresults, h⟩ := Option.bind_eq_some_iff.1 h
  obtain ⟨convergence, hconvergence, h⟩ := Option.bind_eq_some_iff.1 h
  obtain ⟨samples, hsamples, h⟩ := Option.bind_eq_some_iff.1 h
  cases h
  obtain ⟨_, -, hcreated⟩ := Record.exists_of_required hcreated
  obtain ⟨_, -, hcreated⟩ := Option.bind_eq_some_iff.1 hcreated
  obtain ⟨_, -, ha⟩ := Record.exists_of_required ha
  obtain ⟨_, -, hb⟩ := Record.exists_of_required hb
  obtain ⟨_, -, hn⟩ := Record.exists_of_required hn
  obtain ⟨_, -, hresults⟩ := Record.exists_of_required hresults
  obtain ⟨_, -, hconvergence⟩ := Record.exists_of_required hconvergence
  obtain ⟨_, -, hsamples⟩ := Record.exists_of_required hsamples
  have hpoint {p : ConvergencePoint} (hp : p ∈ convergence) :
      p.n < UInt64.size ∧ ∀ x ∈ p.numbers, x.isFinite = true := by
    obtain ⟨d, hd⟩ := exists_of_toList? hconvergence hp
    exact ConvergencePoint.of_ofDocument? hd
  refine ⟨⟨Instant.isValid_of_ofText? hcreated, lt_of_toNat? hn, fun p hp => (hpoint hp).1⟩,
    fun x hx => ?_, rfl⟩
  rcases mem_numbers.1 hx with rfl | rfl | hx | ⟨res, hres, hx⟩ | ⟨p, hp, hx⟩ | ⟨p, hp, hx⟩
  · exact isFinite_of_toFloat? ha
  · exact isFinite_of_toFloat? hb
  · obtain rfl : exact = some x := hx
    obtain ⟨d, hd⟩ := Record.exists_of_optional hexact
    exact isFinite_of_toFloat? hd
  · obtain ⟨d, hd⟩ := exists_of_toList? hresults hres
    exact RuleResult.isFinite_of_ofDocument? hd x hx
  · exact (hpoint hp).2 x hx
  · obtain ⟨d, hd⟩ := exists_of_toList? hsamples hp
    exact Point.isFinite_of_ofDocument? hd x hx

end Report

/-! ## Calculating -/

namespace Engine

variable [Elementary Float] {e e' : Engine} {stamp : Stamp} {request : Request} {r : Report}

theorem of_calculate (h : e.calculate stamp request = (.ok r, e')) :
    r.stamp = stamp ∧ r.n = request.n := by
  unfold calculate at h
  cases hprepare : e.prepare request with
  | error cause => rw [hprepare] at h; cases h
  | ok prepared =>
    rw [hprepare] at h
    cases h
    exact ⟨rfl, rfl⟩

theorem isRegular_of_calculate (h : e.calculate stamp request = (.ok r, e'))
    (hstamp : stamp.createdAt.IsValid) (hn : request.n < UInt64.size)
    (hrange : e.range.limit < UInt64.size) : r.IsRegular := by
  obtain ⟨ms, subject, hA⟩ := calculate_eq_ok h
  obtain ⟨rfl, hpanels⟩ := of_calculate h
  refine ⟨hstamp, hpanels ▸ hn, fun p hp => ?_⟩
  have hcount : p.n ∈ if request.convergence then e.range.counts else [] :=
    hA.counts ▸ List.mem_map_of_mem hp
  split at hcount
  · obtain ⟨-, -, hle⟩ := CountRange.mem_counts.1 hcount
    exact hle.trans_lt hrange
  · cases hcount

end Engine

/-- What is read from a text is written as a text from which it is read again, and so has one
text. What is calculated in finite numbers, at an instant there is and with counts of 64 bits, is
read from its text with all that is written there. Both hold as far as the numbers read back,
which is not true of every double (`JsonNumber.exists_not_readsBack`). -/
theorem Report.canonical_json [Elementary Float] :
    (∀ (text : String) (r : Report), Report.ofJson? text = some r →
      (∀ x ∈ r.numbers, JsonNumber.ReadsBack x) →
        ∃ r', Report.ofJson? r.json = some r' ∧ r' = r ∧ r'.json = r.json) ∧
    ∀ (e : Engine) (stamp : Stamp) (request : Request) (r : Report),
      (e.calculate stamp request).1 = .ok r → stamp.createdAt.IsValid →
      request.n < UInt64.size → e.range.limit < UInt64.size →
      (∀ x ∈ r.numbers, x.isFinite = true) → (∀ x ∈ r.numbers, JsonNumber.ReadsBack x) →
        Report.ofJson? r.json = some { r with digits := Settings.default.digits } := by
  constructor
  · intro text r h hnumbers
    obtain ⟨d, -, hd⟩ := Option.bind_eq_some_iff.1 h
    obtain ⟨hregular, hfinite, hdigits⟩ := of_ofDocument? hd
    have hread := ofJson?_json hregular fun x hx => restores_float (hfinite x hx) (hnumbers x hx)
    rw [← hdigits] at hread
    exact ⟨r, hread, rfl, rfl⟩
  · intro e stamp request r h hstamp hn hrange hfinite hnumbers
    obtain ⟨e', he⟩ : ∃ e', e.calculate stamp request = (.ok r, e') := ⟨_, Prod.ext h rfl⟩
    exact ofJson?_json (Engine.isRegular_of_calculate he hstamp hn hrange) fun x hx =>
      restores_float (hfinite x hx) (hnumbers x hx)

/-- Fields by position, a leap second ahead of universal time and an escaped letter; and a sweep
over two counts. -/
theorem Report.canonical_json_square :
    let text := "[\"00000000000000000000000000000000\",\"1970-01-01t01:59:60.25+01:00\"," ++
      "\"\\u0041\",\"\",null,1e0,-0,3,null,[],[[2,\x7b\"Midpoint\":0.5\x7d]],[[0.1,1]]]"
    let e : Engine := { Engine.ofConfiguration .initial 7 with range := ⟨1, 2, 1⟩ }
    let request := Request.ofRules (.expression "x*x") 0.0 1.0 2 [.monteCarlo] true
    (∃ r, Report.ofJson? text = some r ∧ r.samples.length = 1 ∧ Report.ofJson? r.json = some r) ∧
      ∃ r, (e.calculate ⟨⟨0⟩, ⟨0, 0⟩⟩ request).1 = .ok r ∧ r.convergence.length = 2 ∧
        Report.ofJson? r.json = some { r with digits := Settings.default.digits } := by
  intro text e request
  obtain ⟨hread, hcalculate⟩ := Report.canonical_json
  constructor
  · obtain ⟨r, hr, hsamples, hnumbers⟩ : ∃ r ∈ Report.ofJson? text, r.samples.length = 1 ∧
        ∀ x ∈ r.numbers, JsonNumber.ReadsBack x := by decide +kernel
    obtain ⟨r', hr', heq, -⟩ := hread text r hr hnumbers
    rw [heq] at hr'
    exact ⟨r, hr, hsamples, hr'⟩
  · obtain ⟨r, hr, hlength, hfinite, hback⟩ :
        ∃ r ∈ (e.calculate ⟨⟨0⟩, ⟨0, 0⟩⟩ request).1.toOption, r.convergence.length = 2 ∧
          (∀ x ∈ r.numbers, x.isFinite = true) ∧ ∀ x ∈ r.numbers, JsonNumber.ReadsBack x := by
      decide +kernel
    rcases h : (e.calculate ⟨⟨0⟩, ⟨0, 0⟩⟩ request).1 with cause | _
    · rw [h] at hr
      cases hr
    · rw [h] at hr
      cases hr
      exact ⟨r, rfl, hlength, hcalculate e ⟨⟨0⟩, ⟨0, 0⟩⟩ request r h
        ⟨by decide +kernel, .inl (by decide)⟩ (by decide) (by decide) hfinite hback⟩

end Quadrature
