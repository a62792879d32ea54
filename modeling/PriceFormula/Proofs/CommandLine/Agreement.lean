import PriceFormula.CommandLine.Run
import PriceFormula.Proofs.Formula.Bound
import PriceFormula.Proofs.Pricing.Answer

/-! Checking and evaluating agree. Both commands load the same pricing; the check tells whether its
formula is ready, the evaluation answers it, and a formula that is not ready is answered by the
reason that the check tells. -/

namespace PriceFormula.CommandLine
variable {files : Files} {input : Input}

def wordingOf (files : Files) : (messagesFile : Option String) → Except LoadError Wording
  | some path => wordingIn files path
  | none => .ok .standard

theorem Input.pricing_eq_ok {p : Pricing} : input.pricing files = .ok p ↔
    ∃ f s, input.formula files = .ok f ∧ input.supplied files = .ok s ∧
      p = Pricing.ofStored f s := by
  rw [pricing, bind_eq_ok]
  constructor
  · rintro ⟨f, hf, h⟩
    obtain ⟨s, hs, h⟩ := bind_eq_ok.mp h
    exact ⟨f, s, hf, hs, (Except.ok.inj h).symm⟩
  · rintro ⟨f, s, hf, hs, rfl⟩
    exact ⟨f, hf, bind_eq_ok.mpr ⟨s, hs, rfl⟩⟩

/-- A check that could load its pricing tells whether it is ready. -/
theorem Command.run_check_eq_ok {r : Report} : (check input).run files = .ok r ↔
    ∃ p, input.pricing files = .ok p ∧ r = readinessReport p := by
  rw [run, bind_eq_ok]
  simp only [Except.ok.injEq, eq_comm]

/-- An evaluation that could load its pricing and its wording answers it. -/
theorem Command.run_eval_eq_ok {messagesFile : Option String} {r : Report} :
    (eval input messagesFile).run files = .ok r ↔
      ∃ p w, input.pricing files = .ok p ∧ wordingOf files messagesFile = .ok w ∧
        r = answerReport (p.inWording w).answer := by
  have hrun {p : Pricing} (hp : input.pricing files = .ok p) :
      (eval input messagesFile).run files =
        wordingOf files messagesFile >>= fun w => .ok (answerReport (p.inWording w).answer) := by
    rw [run, hp, ok_bind]
    obtain ⟨f, s, -, -, rfl⟩ := Input.pricing_eq_ok.mp hp
    cases messagesFile <;> rfl
  constructor
  · intro h
    obtain ⟨p, hp, -⟩ := bind_eq_ok.mp h
    rw [hrun hp] at h
    obtain ⟨w, hw, h⟩ := bind_eq_ok.mp h
    exact ⟨p, w, hp, hw, (Except.ok.inj h).symm⟩
  · rintro ⟨p, w, hp, hw, rfl⟩
    rw [hrun hp, hw, ok_bind]

section Reports
variable {p : Pricing}

private theorem readinessReport_of_bound {b : BoundFormula} (h : p.bound = .ok b) :
    ∃ lines, readinessReport p = ⟨0, lines ++ "\nReady: yes\n", none⟩ := by
  have hready : p.unready? = none := by rw [Pricing.unready?, h]
  unfold readinessReport
  simp only [hready]
  split
  · exact ⟨"Mode: " ++ modeName p.mode, by simp [String.append_assoc]⟩
  · exact ⟨"Mode: " ++ modeName p.mode ++ "\n" ++ ("References: " ++
      ", ".intercalate (p.references.toList.map Text.unmarkColons)), by simp [String.append_assoc]⟩

private theorem readinessReport_of_unready {e : Unready} (h : p.bound = .error e) :
    readinessReport p =
      ⟨1, "Mode: " ++ modeName p.mode ++ "\n" ++ "Ready: no (" ++ e.message ++ ")\n", none⟩ := by
  have hreason : p.unready? = some e := by rw [Pricing.unready?, h]
  have hnames : p.references.toList = [] := by
    rw [Pricing.references, Pricing.bound?, h]
    rfl
  unfold readinessReport
  simp [hreason, hnames, String.append_assoc]

private theorem answer_of_unready {e : Unready} (h : p.bound = .error e) (w : Wording) :
    (p.inWording w).answer = .message (w.fill .unready e.message) := by
  have hprice : (p.inWording w).price = .error (.unready (some e)) :=
    Pricing.price_eq_unready_iff.mpr ⟨e, h, rfl⟩
  rw [Pricing.answer, hprice]
  rfl

private theorem answerReport_line {a : Answer} (ha : a.Sound) :
    (answerReport a).output = a.text ++ "\n" ∧ '\n' ∉ a.text.toList ∧
      ∃ b, Answer.ofText a.text = .ok b ∧ ((answerReport a).exitCode = 0 ↔ b.hasPrice = true) := by
  obtain ⟨b, hread, hstatus⟩ := Answer.exists_ofText ha
  refine ⟨rfl, fun hbreak => ?_, b, hread, ?_⟩
  · exact absurd (a.printable_text _ hbreak) (by decide)
  · rw [answerReport, Answer.hasPrice, Answer.hasPrice, hstatus]
    simp

end Reports

def SaysReady (r : Report) : Prop := ∃ lines, r.output = lines ++ "\nReady: yes\n"

/-- The report tells a mode and, behind it, a reason why the formula is not ready. -/
def SaysUnready (r : Report) (mode : Mode) (reason : String) : Prop :=
  r.output = "Mode: " ++ modeName mode ++ "\n" ++ "Ready: no (" ++ reason ++ ")\n"

private theorem not_saysReady_of_saysUnready {r : Report} {mode : Mode} {reason : String}
    (h : SaysUnready r mode reason) : ¬SaysReady r := by
  rintro ⟨lines, hlines⟩
  have hends := congrArg String.toList (h.symm.trans hlines)
  rw [String.toList_append, String.toList_append] at hends
  have hlast := congrArg (fun s => s.reverse.take 2) hends
  simp at hlast

private theorem SaysUnready.reason_eq {r : Report} {mode : Mode} {reason other : String}
    (h : SaysUnready r mode reason) (hother : SaysUnready r mode other) : reason = other := by
  have houtput := congrArg String.toList (h.symm.trans hother)
  simp only [String.toList_append, List.append_cancel_right_eq, List.append_cancel_left_eq]
    at houtput
  exact String.toList_inj.mp houtput

/-- Where both commands load a formula and variables, they agree on them. The check succeeds and
says yes exactly if the price is not missing for want of readiness. Where it says no for a reason,
which it does in all other cases, it fails, and the evaluation fails with the message for an unready
formula, in which the reason stands for the detail. The evaluation prints one line in any case,
which reads as an answer, and succeeds exactly if that answer is a price. A formula that is ready
has the declared mode, single or conditional. -/
theorem check_agrees_with_eval {files : Files} {input : Input} {messagesFile : Option String}
    {checked evaluated : Report} (hcheck : (Command.check input).run files = .ok checked)
    (heval : (Command.eval input messagesFile).run files = .ok evaluated) :
    ∃ p w, input.pricing files = .ok p ∧ wordingOf files messagesFile = .ok w ∧
      (checked.exitCode = 0 ∧ SaysReady checked ↔
        ∀ r, (p.inWording w).price ≠ .error (.unready r)) ∧
      (SaysReady checked ∨ ∃ reason, SaysUnready checked p.mode reason) ∧
      (∀ reason, SaysUnready checked p.mode reason →
        checked.exitCode = 1 ∧ evaluated.exitCode = 1 ∧
          evaluated.output = (Answer.message (w.fill .unready reason)).text ++ "\n") ∧
      (∃ line, line = (p.inWording w).answer.text ∧
        evaluated.output = line ++ "\n" ∧ '\n' ∉ line.toList ∧
        ∃ a, Answer.ofText line = .ok a ∧ (evaluated.exitCode = 0 ↔ a.hasPrice = true)) ∧
      (p.isReady = true → ∃ b, p.bound = .ok b ∧ p.mode = b.formula.mode ∧
        (p.mode = .single ∨ p.mode = .conditional)) := by
  obtain ⟨p, hp, rfl⟩ := Command.run_check_eq_ok.mp hcheck
  obtain ⟨q, w, hq, hw, rfl⟩ := Command.run_eval_eq_ok.mp heval
  obtain rfl := Except.ok.inj (hp.symm.trans hq)
  have hline := answerReport_line (p.inWording w).answer_sound
  refine ⟨p, w, hp, hw, ?_⟩
  cases hbound : p.bound with
  | ok b =>
    obtain ⟨lines, hreport⟩ := readinessReport_of_bound hbound
    have hready : SaysReady (readinessReport p) := ⟨lines, by rw [hreport]⟩
    refine ⟨⟨fun _ r hprice => ?_, fun _ => ⟨by rw [hreport], hready⟩⟩, .inl hready,
      fun reason hreason => absurd hready (not_saysReady_of_saysUnready hreason),
      ⟨_, rfl, hline⟩, fun _ => ?_⟩
    · obtain ⟨e, herror, -⟩ := Pricing.price_eq_unready_iff.mp hprice
      cases hbound.symm.trans herror
    · obtain ⟨f, s, -, -, rfl⟩ := Input.pricing_eq_ok.mp hp
      have hmode := Pricing.mode_of_bound hbound
      exact ⟨b, rfl, hmode, hmode ▸ b.formula.mode_known⟩
  | error e =>
    have hreport := readinessReport_of_unready hbound
    have hunready : SaysUnready (readinessReport p) p.mode e.message := by
      rw [SaysUnready, hreport]
    refine ⟨⟨fun h => absurd h.2 (not_saysReady_of_saysUnready hunready), fun h => ?_⟩,
      .inr ⟨_, hunready⟩, fun reason hreason => ?_, ⟨_, rfl, hline⟩, fun h => ?_⟩
    · exact absurd (Pricing.price_eq_unready_iff.mpr ⟨e, hbound, rfl⟩) (h (some e))
    · obtain rfl := hunready.reason_eq hreason
      rw [answer_of_unready hbound, hreport]
      exact ⟨rfl, rfl, rfl⟩
    · rw [Pricing.isReady, Pricing.bound?, hbound] at h
      cases h

/-- A formula with an unbound variable, in a wording of its own that tells the reason twice. -/
theorem check_agrees_with_eval_on_unbound :
    let files : Files := fun path =>
      if path = "words.json" then
        some "\x7b\"invalid_data\": \"No: \x7bdetail\x7d! \x7bdetail\x7d\"\x7d"
      else none
    let input : Input := ⟨.expression "\x7ba\x7d * 2", none, [("b", .integer 1)]⟩
    ∃ checked evaluated, (Command.check input).run files = .ok checked ∧
      (Command.eval input (some "words.json")).run files = .ok evaluated ∧
      SaysUnready checked .single "Missing variables: a" ∧ checked.exitCode = 1 ∧
      evaluated.exitCode = 1 ∧ evaluated.output =
        (Answer.message "No: Missing variables: a! Missing variables: a").text ++ "\n" := by
  intro files input
  have hcheck : (Command.check input).run files =
      .ok ⟨1, "Mode: Single\nReady: no (Missing variables: a)\n", none⟩ := by
    decide +kernel
  have heval : (Command.eval input (some "words.json")).run files = .ok ⟨1,
      (Answer.message "No: Missing variables: a! Missing variables: a").text ++ "\n", none⟩ := by
    decide +kernel
  have hsays : SaysUnready ⟨1, "Mode: Single\nReady: no (Missing variables: a)\n", none⟩ .single
      "Missing variables: a" := rfl
  obtain ⟨p, w, hp, hw, -, -, hno, -⟩ := check_agrees_with_eval hcheck heval
  have hmode : p.mode = .single := by
    obtain ⟨f, s, hf, -, rfl⟩ := Input.pricing_eq_ok.mp hp
    obtain rfl := Except.ok.inj hf
    rfl
  obtain ⟨hfirst, hsecond, -⟩ := hno _ (hmode ▸ hsays)
  exact ⟨_, _, hcheck, heval, hsays, hfirst, hsecond, rfl⟩

end PriceFormula.CommandLine
