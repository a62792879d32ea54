import Mathlib.Data.List.Permutation
import PriceFormula.Proofs.Json.Decoding
import PriceFormula.Proofs.Json.Printable
import PriceFormula.Proofs.Pricing.Outcome

namespace PriceFormula

namespace Answer

open Json Json.Reader

def Sound (a : Answer) : Prop :=
  (∃ v, a = price v ∧ v.isFinite = true ∧ 0 < v) ∨ ∃ text, a = message text

def Readable (reading : FloatReading) (a : Answer) : Prop :=
  ∀ v, a = price v → ReadsBack reading v

private inductive ReadsAs (reading : FloatReading) : (a b : Answer) → Prop
  | price {v w : Float} (h : Json.ReadsAs reading v w) : ReadsAs reading (price v) (price w)
  | message (text : String) : ReadsAs reading (message text) (message text)

private theorem Readable.readsAs {reading : FloatReading} {a : Answer} (ha : a.Readable reading) :
    a.ReadsAs reading a := by
  cases a with
  | price v => exact .price (ha v rfl).readsAs
  | message text => exact .message text

def statusMember (a : Answer) : String × Json := ("status", .string a.status.word)

def payloadMember (a : Answer) : String × Json := ("payload", a.payload)

section Members
variable {reading : FloatReading} {a b : Answer}

private theorem readStatus_written (status : Status) (rest : List Char) :
    Progress.readStatus (write (.string status.word) ++ rest) = .ok (status, rest) := by
  have hword : Progress.readWord (writtenString status.word ++ rest) = .ok (status, rest) := by
    rw [Progress.readWord, text_written, ok_bind]
    cases status <;> rfl
  rw [write]
  rw [writtenString, List.cons_append] at hword ⊢
  unfold Progress.readStatus
  rw [skipBlank_cons (by decide)]
  exact hword

private theorem readPayload_written (h : a.ReadsAs reading b) {rest : List Char}
    (hrest : Delimited rest) :
    Progress.readPayload reading a.status (write a.payload ++ rest) = .ok (b, rest) := by
  cases h with
  | @price v w h =>
    change (number reading (write (.float v) ++ rest) >>= _) = _
    rw [write, number_of_readsAs h hrest]
    rfl
  | message text =>
    change (Reader.text (write (.string text) ++ rest) >>= _) = _
    rw [write, text_written]
    rfl

private theorem valueBy_payload (ha : a.Readable reading) (depth : Nat) {rest : List Char}
    (hrest : Delimited rest) :
    valueBy reading true depth (write a.payload ++ rest) = .ok (a.payload, rest) := by
  cases a with
  | price v =>
    rw [payload, write]
    exact valueBy_of_readsAs (ha v rfl).readsAs hrest depth
  | message text =>
    rw [payload, write]
    exact valueBy_string text depth rest

private theorem write_payload_ne_null (ha : a.Sound) : write a.payload ≠ write .null := by
  rcases ha with ⟨v, rfl, hfinite, hpos⟩ | ⟨text, rfl⟩
  · obtain ⟨p, hlays, -, -, htext⟩ := exists_writtenFloat_positive hfinite hpos
    obtain ⟨c, s, hhead, hdigit⟩ := hlays.wellFormed.exists_text_eq
    have hwrite : write (.float v) = c :: s := by rw [write, htext, hhead]
    rw [payload, hwrite]
    intro h
    obtain ⟨rfl, -⟩ := List.cons.inj h
    exact absurd hdigit (by decide)
  · have hwrite : write (.string text) = '"' :: (text.toList.flatMap writtenChar ++ ['"']) := by
      rw [write, writtenString]
    rw [payload, hwrite]
    intro h
    exact absurd (List.cons.inj h).1 (by decide)

private theorem ofParts_payload : Progress.ofParts a.status a.payload = .ok a := by
  cases a <;> rfl

private theorem readField_other (progress : Progress) {m : String × Json}
    (hm : decide (m.1 = "status" ∨ m.1 = "payload") = false) :
    ∃ read, Progress.readField reading progress m.1 = .ok read ∧ Takes read m.2 progress := by
  obtain ⟨hstatus, hpayload⟩ := not_or.mp (of_decide_eq_false hm)
  refine ⟨skipped progress, ?_, fun rest hrest => ?_⟩
  · exact (if_neg hstatus).trans (if_neg hpayload)
  · obtain ⟨x, hx⟩ := @takes_skipped magnitude? m.2 (write m.2 ++ rest).length
      (by rw [List.length_append]; omega)
    rw [skipped, value, hx rest hrest]
    rfl

private theorem feeds_status_payload (h : a.ReadsAs reading b) :
    Feeds (Progress.readField reading) .start [a.statusMember, a.payloadMember] (.finished b) := by
  have hpayload : Feeds (Progress.readField reading) (.known a.status) [a.payloadMember]
      (.finished b) := by
    refine .cons rfl (fun rest hrest => ?_) (.nil _)
    rw [payloadMember, readPayload_written h hrest]
    rfl
  refine .cons rfl (fun rest _ => ?_) hpayload
  rw [statusMember, readStatus_written]
  rfl

private theorem feeds_payload_status (ha : a.Readable reading) :
    Feeds (Progress.readField reading) .start [a.payloadMember, a.statusMember] (.finished a) := by
  have hstatus : Feeds (Progress.readField reading) (.waiting a.payload) [a.statusMember]
      (.finished a) := by
    refine .cons rfl (fun rest _ => ?_) (.nil _)
    rw [statusMember, readStatus_written, ok_bind]
    simp only [ofParts_payload]
    rfl
  refine .cons rfl (fun rest hrest => ?_) hstatus
  rw [payloadMember, valueBy_payload ha _ hrest]
  rfl

/-- A run over members that ends with an answer is what reading their object gives. -/
theorem ofTextBy_of_feeds {members : List (String × Json)}
    (h : Feeds (Progress.readField reading) .start members (.finished b)) :
    ofTextBy reading (Json.object members).text = .ok b := by
  refine complete_object h fun s hs => ?_
  unfold read
  rw [skipBlank_cons (by decide)]
  simp only
  rw [hs]
  rfl

private theorem ofTextBy_text (h : a.ReadsAs reading b) : ofTextBy reading a.text = .ok b :=
  ofTextBy_of_feeds (feeds_status_payload h)

/-- An object with the two members of an answer in any order, and any others, reads as that
answer. -/
theorem ofTextBy_object (ha : a.Readable reading) {members : List (String × Json)}
    (hmembers : (members.filter fun m => m.1 = "status" ∨ m.1 = "payload").Perm
      [a.statusMember, a.payloadMember]) :
    ofTextBy reading (Json.object members).text = .ok a := by
  refine ofTextBy_of_feeds (feeds_of_filter (fun progress m hm => readField_other progress hm) ?_)
  rcases List.perm_pair.mp hmembers with horder | horder
  · rw [horder]
    exact feeds_status_payload ha.readsAs
  · rw [horder]
    exact feeds_payload_status ha

private theorem readable_of_correctlyRounded (hreading : CorrectlyRounded reading) (ha : a.Sound) :
    a.Readable reading := by
  rintro v rfl
  rcases ha with ⟨_, hv, hfinite, hpos⟩ | ⟨_, hv⟩
  · obtain rfl := Answer.price.inj hv
    exact readsBack_of_correctlyRounded hfinite hpos hreading
  · nomatch hv

end Members

/-- Messages, and prices of ordinary size, read back by their magnitudes. -/
theorem ofText_object_of_short {a : Answer} (ha : a.Sound)
    (hshort : ∀ v, a = price v →
      (Number.shortest Notation.json.tieUp v).digits *
        10 ^ ((Number.shortest Notation.json.tieUp v).exponent.toNat + 1) < 2 ^ 53 ∧
      -22 ≤ (Number.shortest Notation.json.tieUp v).exponent)
    {members : List (String × Json)}
    (hmembers : (members.filter fun m => m.1 = "status" ∨ m.1 = "payload").Perm
      [a.statusMember, a.payloadMember]) :
    ofText (Json.object members).text = .ok a := by
  refine ofTextBy_object (fun v hv => ?_) hmembers
  obtain ⟨hdigits, hexponent⟩ := hshort v hv
  rcases ha with ⟨u, hu, hfinite, hpos⟩ | ⟨_, htext⟩
  · obtain rfl := Answer.price.inj (hv.symm.trans hu)
    exact readsBack_of_short hfinite hpos hdigits hexponent
  · nomatch hv.symm.trans htext

/-- The text of every answer that a pricing may give reads as an answer of the same kind. Its price
may be read as a float next to the one that was written. -/
theorem exists_ofText {a : Answer} (ha : a.Sound) :
    ∃ b, ofText a.text = .ok b ∧ b.status = a.status := by
  rcases ha with ⟨v, rfl, hfinite, hpositive⟩ | ⟨text, rfl⟩
  · obtain ⟨w, hw⟩ := exists_readsAs hfinite hpositive
    exact ⟨price w, ofTextBy_text (.price hw), rfl⟩
  · exact ⟨message text, ofTextBy_text (.message text), rfl⟩

/-- The text of an answer is one line. -/
theorem printable_text (a : Answer) : Printable a.text.toList := by
  rw [Answer.text, Json.text, String.toList_ofList]
  exact Json.printable_write _

end Answer

theorem Pricing.answer_sound (p : Pricing) : p.answer.Sound := by
  unfold answer
  cases hprice : p.price with
  | ok v => exact .inl ⟨v, rfl, Pricing.price_positive hprice⟩
  | error e => exact .inr ⟨_, rfl⟩

/-- Every stored formula, with any supplied values and in any wording, is answered by a price that
is finite and above zero or by a message. The text of the answer is one line, its payload is not
null, and it reads back as that answer, also with the two members in the other order and further
members under other keys. Floats are taken to be read correctly rounded. -/
theorem Pricing.answer_reads_back {reading : Json.FloatReading}
    (hreading : Json.CorrectlyRounded reading) (f : StoredFormula) (supplied : Supplied)
    (w : Wording) (a : Answer) (ha : ((Pricing.ofStored f supplied).inWording w).answer = a) :
    ((∃ v, a = .price v ∧ v.isFinite = true ∧ 0 < v) ∨ ∃ text, a = .message text) ∧
    (∀ c ∈ a.text.toList, 0x20 ≤ c.toNat) ∧
    Json.write a.payload ≠ Json.write .null ∧
    Answer.ofTextBy reading a.text = .ok a ∧
    ∀ members : List (String × Json),
      (members.filter fun m => m.1 = "status" ∨ m.1 = "payload").Perm
        [("status", .string a.status.word), ("payload", a.payload)] →
      Answer.ofTextBy reading (Json.object members).text = .ok a := by
  have hsound : a.Sound := ha ▸ answer_sound _
  have hreadable := Answer.readable_of_correctlyRounded hreading hsound
  refine ⟨hsound, ?_, ?_, ?_, fun members hmembers => ?_⟩
  · rw [Answer.text, Json.text, String.toList_ofList]
    exact Json.printable_write _
  · exact Answer.write_payload_ne_null hsound
  · exact Answer.ofTextBy_object hreadable (.refl _)
  · exact Answer.ofTextBy_object hreadable hmembers

/-- A sum as the price, read back with the members swapped and a further one before them. -/
theorem Pricing.answer_of_sum_reads_back :
    Json.CorrectlyRounded Json.nearestReading ∧
    ((Pricing.ofStored (.single "2 + 2") ∅).inWording .standard).answer = .price 4 ∧
    Answer.ofTextBy Json.nearestReading
      (Json.object [("note", .null), ("payload", .float 4), ("status", .string "success")]).text =
        .ok (.price 4) := by
  have hanswer : ((Pricing.ofStored (.single "2 + 2") ∅).inWording .standard).answer =
      .price 4 := by
    decide +kernel
  obtain ⟨-, -, -, -, hread⟩ := Pricing.answer_reads_back Json.correctlyRounded_nearestReading
    (.single "2 + 2") ∅ .standard (.price 4) hanswer
  exact ⟨Json.correctlyRounded_nearestReading, hanswer, hread _ (List.Perm.swap _ _ _)⟩

end PriceFormula
