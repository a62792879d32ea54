import PriceFormula.Pricing.Basic
import PriceFormula.Proofs.Json.Kept

namespace PriceFormula

open Json Json.Reader

namespace StoredFormula
variable {reading : FloatReading} {f : StoredFormula}

private theorem feeds_fields (hf : Takes (readPayload reading) f.expr f.expr) :
    Feeds (readField reading) (none, none) [("mode", .string f.mode), ("expr", f.expr)]
      (some f.mode, some f.expr) := by
  have hexpr : Feeds (readField reading) (some f.mode, none) [("expr", f.expr)]
      (some f.mode, some f.expr) := by
    refine .cons rfl (fun rest hrest => ?_) (.nil _)
    rw [hf rest hrest]
    rfl
  refine .cons rfl (fun rest _ => ?_) hexpr
  rw [write, text_written]
  rfl

/-- A stored formula reads back from its text if its payload does. -/
theorem ofTextBy_text_of_takes (hf : Takes (readPayload reading) f.expr f.expr) :
    ofTextBy reading f.text = .ok f := by
  refine complete_object (feeds_fields hf) fun s hs => ?_
  unfold read
  rw [skipBlank_cons (by decide)]
  simp only
  rw [hs]
  rfl

/-- A stored formula whose payload can be kept reads back from its text. -/
theorem ofTextBy_text (hreading : CorrectlyRounded reading) (hf : Kept (depthLimit - 1) f.expr) :
    ofTextBy reading f.text = .ok f :=
  ofTextBy_text_of_takes (takes_kept hreading hf)

end StoredFormula

namespace Wording

def member (entry : Topic × String) : String × Json := (entry.1.key, .string entry.2)

private theorem ofKey?_key (topic : Topic) : Topic.ofKey? topic.key = some topic := by
  cases topic <;> decide

private theorem mem_toList {w : Wording} {topic : Topic} {template : String} :
    (topic, template) ∈ w.toList ↔ w.replaced topic = some template := by
  have hall : topic ∈ Topic.all := by cases topic <;> decide
  rw [toList, List.mem_filterMap]
  constructor
  · rintro ⟨_, -, h⟩
    obtain ⟨_, hreplaced, heq⟩ := Option.map_eq_some_iff.mp h
    obtain ⟨rfl, rfl⟩ := Prod.mk.inj heq
    exact hreplaced
  · intro h
    exact ⟨topic, hall, by rw [h]; rfl⟩

private theorem replaced_set (w : Wording) (topic other : Topic) (template : String) :
    (w.set topic template).replaced other =
      if other = topic then some template else w.replaced other := rfl

private theorem readField_member (w : Wording) (entry : Topic × String) :
    ∃ read, readField w (member entry).1 = .ok read ∧
      Takes read (member entry).2 (w.set entry.1 entry.2) := by
  rw [member, readField, ofKey?_key]
  refine ⟨_, rfl, fun rest _ => ?_⟩
  rw [write, text_written]
  rfl

/-- A run over templates of a wording ends with that wording, if it started where all topics that
do not come are settled. -/
private theorem feeds_templates {w gathered : Wording} {entries : List (Topic × String)}
    (hentries : ∀ entry ∈ entries, w.replaced entry.1 = some entry.2)
    (hothers : ∀ topic, topic ∉ entries.map Prod.fst →
      gathered.replaced topic = w.replaced topic) :
    Feeds readField gathered (entries.map member) w := by
  induction entries generalizing gathered with
  | nil =>
    have hsame : gathered.replaced = w.replaced := by
      funext topic
      exact hothers topic (by simp)
    have hw : gathered = w := congrArg Wording.mk hsame
    rw [hw]
    exact .nil w
  | cons entry entries ih =>
    obtain ⟨hentry, hrest⟩ := List.forall_mem_cons.mp hentries
    obtain ⟨read, hfield, hread⟩ := readField_member gathered entry
    refine .cons hfield hread (ih hrest ?_)
    intro topic htopic
    rw [replaced_set]
    by_cases heq : topic = entry.1
    · rw [heq, if_pos rfl, hentry]
    · rw [if_neg heq]
      refine hothers topic ?_
      rw [List.map_cons, List.mem_cons]
      exact not_or.mpr ⟨heq, htopic⟩

/-- A wording reads back from its templates in any order. -/
theorem ofText_object {w : Wording} {entries : List (Topic × String)}
    (h : entries.Perm w.toList) : ofText (Json.object (entries.map member)).text = .ok w := by
  have hfeeds : Feeds readField standard (entries.map member) w := by
    apply feeds_templates
    · intro entry hentry
      exact mem_toList.mp (h.mem_iff.mp hentry)
    · intro topic htopic
      cases hreplaced : w.replaced topic with
      | none => rfl
      | some template =>
        have hmem := h.mem_iff.mpr (mem_toList.mpr hreplaced)
        exact absurd (List.mem_map_of_mem hmem) htopic
  refine complete_object hfeeds fun s hs => ?_
  unfold read
  rw [skipBlank_cons (by decide)]
  exact hs true

end Wording

/-- Stored configuration reads back unchanged. A stored formula with any mode, whose payload can be
kept one level deep, reads back from its text, so the pricing of what was read is that of the
formula under all supplied values. A wording reads back from its templates, in whatever order they
are stored. Floats are taken to be read correctly rounded. -/
theorem Pricing.configuration_reads_back {reading : Json.FloatReading}
    (hreading : Json.CorrectlyRounded reading) {f : StoredFormula}
    (hf : Json.Kept (Json.depthLimit - 1) f.expr) (w : Wording) :
    StoredFormula.ofTextBy reading f.text = .ok f ∧
    (∀ supplied : Supplied, (StoredFormula.ofTextBy reading f.text).map
      (Pricing.ofStored · supplied) = .ok (Pricing.ofStored f supplied)) ∧
    Wording.ofText w.text = .ok w ∧
    ∀ entries : List (Topic × String), entries.Perm w.toList →
      Wording.ofText (Json.object (entries.map fun entry =>
        (entry.1.key, Json.string entry.2))).text = .ok w := by
  have hread := StoredFormula.ofTextBy_text hreading hf
  refine ⟨hread, fun supplied => ?_, ?_, fun entries hentries => ?_⟩
  · rw [hread]
    rfl
  · exact Wording.ofText_object (.refl _)
  · exact Wording.ofText_object hentries

/-- A payload with values of every kind, among them minus zero, the largest integer, and characters
that have to be escaped; and a wording whose templates are stored in the other order. -/
theorem Pricing.configuration_of_lines_reads_back :
    let line := Json.object [("\x01\"", .float (-0.0)), ("if", .integer (2 ^ 64 - 1)),
      ("then", .array [.null, .bool true, .integer (-2 ^ 63), .float 0.1])]
    let f : StoredFormula := ⟨"conditional\n", .array [line, .string "\\ż\u2028"]⟩
    let w := (Wording.standard.set .zero "\"0\"\t").set .noCase ""
    StoredFormula.ofTextBy Json.nearestReading f.text = .ok f ∧
      Wording.ofText (Json.object [("undefined_result", .string ""),
        ("zero_price", .string "\"0\"\t")]).text = .ok w := by
  intro line f w
  have hline : Json.Kept (Json.depthLimit - 2) line := by
    apply Json.Kept.object
    · decide
    · simp only [List.forall_mem_cons, List.not_mem_nil, false_imp_iff, implies_true, and_true]
      refine ⟨.float (by decide +kernel), .integer (by decide) (by decide), .array ?_⟩
      simp only [List.forall_mem_cons, List.not_mem_nil, false_imp_iff, implies_true, and_true]
      exact ⟨.null, .bool true, .integer (by decide) (by decide), .float (by decide +kernel)⟩
  have hf : Json.Kept (Json.depthLimit - 1) f.expr := by
    apply Json.Kept.array
    simp only [List.forall_mem_cons, List.not_mem_nil, false_imp_iff, implies_true, and_true]
    exact ⟨hline, .string _⟩
  obtain ⟨hread, -, -, hwording⟩ :=
    Pricing.configuration_reads_back Json.correctlyRounded_nearestReading hf w
  exact ⟨hread, hwording [(.noCase, ""), (.zero, "\"0\"\t")] (.swap _ _ _)⟩

end PriceFormula
