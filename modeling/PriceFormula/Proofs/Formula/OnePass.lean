import PriceFormula.Proofs.Formula.Encoding

/-! The normal form in a single pass. No rewrite sees what an earlier one wrote, so going once over
the decoded text comes to the same, and the two kinds of commas never get mixed up. -/

namespace PriceFormula

namespace Normal
open Text Text.Marker

def respelled : Char → List Char
  | ',' => ['.']
  | ';' => [',']
  | ':' => marker
  | c => [c]

/-- Goes over a text once, from the left. A call of `constant` becomes a parenthesis, every other
character is respelled on its own. -/
def onePass : List Char → List Char
  | [] => []
  | 'c' :: 'o' :: 'n' :: 's' :: 't' :: 'a' :: 'n' :: 't' :: '(' :: rest => '(' :: onePass rest
  | c :: rest => respelled c ++ onePass rest

theorem onePass_call (rest : List Char) : onePass (constantCall ++ rest) = '(' :: onePass rest := rfl

theorem onePass_cons {c : Char} {rest : List Char} (h : ¬constantCall <+: c :: rest) :
    onePass (c :: rest) = respelled c ++ onePass rest := by
  rw [onePass]
  rintro tail rfl rfl
  exact h (List.prefix_append constantCall tail)

/-- Induction over a text as the pass goes over it. -/
theorem onePass_induct {motive : List Char → Prop} (nil : motive [])
    (call : ∀ rest, motive rest → motive (constantCall ++ rest))
    (char : ∀ c rest, ¬constantCall <+: c :: rest → motive rest → motive (c :: rest))
    (s : List Char) : motive s := by
  induction s using onePass.induct with
  | case1 => exact nil
  | case2 rest ih => exact call rest ih
  | case3 c rest hcall ih =>
    refine char c rest ?_ ih
    rintro ⟨tail, htail⟩
    obtain ⟨rfl, rfl⟩ := List.cons.inj htail
    exact hcall tail rfl rfl

/-- A character is one of the three that are respelled, or it stays. -/
theorem respelled_cases (c : Char) :
    c = ',' ∨ c = ';' ∨ c = ':' ∨ (c ≠ ',' ∧ c ≠ ';' ∧ c ≠ ':') ∧ respelled c = [c] := by
  unfold respelled
  split
  · exact .inl rfl
  · exact .inr (.inl rfl)
  · exact .inr (.inr (.inl rfl))
  · rename_i hcomma hsemicolon hcolon
    exact .inr (.inr (.inr ⟨⟨hcomma, hsemicolon, hcolon⟩, rfl⟩))

private theorem call_prefix_of_pointed {s : List Char}
    (h : constantCall <+: s.map fun c => if c = ',' then '.' else c) : constantCall <+: s := by
  obtain ⟨w, hw, hcall⟩ := List.prefix_map_iff.mp h
  have hcomma : ',' ∉ w := by
    intro hmem
    have hpoint : '.' ∈ constantCall := by
      rw [hcall]
      exact List.mem_map.mpr ⟨',', hmem, rfl⟩
    exact absurd hpoint (by decide)
  have hkept : w.map (fun c => if c = ',' then '.' else c) = w := by
    refine (List.map_congr_left fun c hc => if_neg ?_).trans (List.map_id' w)
    rintro rfl
    exact hcomma hc
  rw [hcall, hkept]
  exact hw

/-- The rewrites behind the braces are one pass. -/
theorem mark_group_eq_onePass (s : List Char) :
    mark ((group (s.map fun c => if c = ',' then '.' else c)).map
      fun c => if c = ';' then ',' else c) = onePass s := by
  induction s using onePass_induct with
  | nil => rfl
  | call rest ih =>
    have hkept : constantCall.map (fun c => if c = ',' then '.' else c) = constantCall := by decide
    rw [List.map_append, hkept, group_call, List.map_cons, mark_cons, ih, onePass_call]
    rfl
  | char c rest hcall ih =>
    have hpointed : ¬constantCall <+: (if c = ',' then '.' else c) ::
        rest.map fun c => if c = ',' then '.' else c := fun h => hcall (call_prefix_of_pointed h)
    rw [onePass_cons hcall, List.map_cons, group, replace_of_not_prefix hpointed, ← group,
      List.map_cons, mark_cons, ih]
    congr 1
    -- a comma, a semicolon, a colon, or a character that no replacement is about
    rcases respelled_cases c with rfl | rfl | rfl | ⟨⟨hcomma, hsemicolon, hcolon⟩, hkept⟩
    · rfl
    · rfl
    · rfl
    · simp only [hkept, if_neg hcomma, if_neg hsemicolon, if_neg hcolon]

/-- The normal form is one pass over the decoded text without its braces. -/
theorem form_eq_onePass (s : List Char) :
    form s = onePass ((Entity.decode (mark s)).filter fun c => c ≠ '{' ∧ c ≠ '}') :=
  mark_group_eq_onePass _

private theorem mem_respelled {c d : Char} (h : c ∈ respelled d) :
    (c = d ∧ c ≠ ';' ∧ c ≠ ':') ∨ c ∈ '.' :: ',' :: marker := by
  rcases respelled_cases d with rfl | rfl | rfl | ⟨⟨-, hsemicolon, hcolon⟩, hkept⟩
  · exact .inr (List.mem_cons.mpr (.inl (List.mem_singleton.mp h)))
  · exact .inr (List.mem_cons_of_mem _ (List.mem_cons.mpr (.inl (List.mem_singleton.mp h))))
  · exact .inr (List.mem_cons_of_mem _ (List.mem_cons_of_mem _ h))
  · rw [hkept] at h
    obtain rfl := List.mem_singleton.mp h
    exact .inl ⟨rfl, hsemicolon, hcolon⟩

private theorem mem_onePass {c : Char} {s : List Char} (h : c ∈ onePass s) :
    (c ∈ s ∧ c ≠ ';' ∧ c ≠ ':') ∨ c ∈ '(' :: '.' :: ',' :: marker := by
  induction s using onePass_induct with
  | nil => cases h
  | call rest ih =>
    rw [onePass_call] at h
    rcases List.mem_cons.mp h with rfl | h
    · exact .inr List.mem_cons_self
    · exact (ih h).imp_left (And.imp_left (List.mem_append_right constantCall))
  | char d rest hcall ih =>
    rw [onePass_cons hcall] at h
    rcases List.mem_append.mp h with h | h
    · rcases mem_respelled h with ⟨rfl, hkept⟩ | hwritten
      · exact .inl ⟨List.mem_cons_self, hkept⟩
      · exact .inr (List.mem_cons_of_mem '(' hwritten)
    · exact (ih h).imp_left (And.imp_left (List.mem_cons_of_mem d))

private theorem filter_onePass (s : List Char) :
    (onePass s).filter (fun c => c = ',' ∨ c = '.') =
      (s.filter fun c => c = ';' ∨ c = ',' ∨ c = '.').map fun c => if c = ';' then ',' else '.' := by
  induction s using onePass_induct with
  | nil => rfl
  | call rest ih =>
    have hnone : constantCall.filter (fun c => c = ';' ∨ c = ',' ∨ c = '.') = [] := by decide
    rw [onePass_call, List.filter_append, hnone, List.nil_append, ← ih]
    rfl
  | char c rest hcall ih =>
    rw [onePass_cons hcall, List.filter_append, ih, List.filter_cons]
    rcases respelled_cases c with rfl | rfl | rfl | ⟨⟨hcomma, hsemicolon, -⟩, hkept⟩
    · rfl
    · rfl
    · rfl
    · rw [hkept]
      by_cases hpoint : c = '.'
      · subst hpoint
        rfl
      · simp [hcomma, hsemicolon, hpoint]

private theorem filter_unbraced (s : List Char) :
    ((s.filter fun c => c ≠ '{' ∧ c ≠ '}').filter fun c => c = ';' ∨ c = ',' ∨ c = '.') =
      s.filter fun c => c = ';' ∨ c = ',' ∨ c = '.' := by
  rw [List.filter_filter]
  refine List.filter_congr fun c _ => ?_
  by_cases hbrace : c = '{' ∨ c = '}'
  · rcases hbrace with rfl | rfl <;> rfl
  · rw [not_or] at hbrace
    simp [hbrace]

end Normal

/-- The normal form of a text, character by character. -/
theorem toList_normalForm (text : String) :
    (normalForm text).toList =
      Normal.onePass ((Text.decodeEntities (Text.markColons text)).toList.filter
        fun c => c ≠ '{' ∧ c ≠ '}') := by
  rw [normalForm, String.toList_ofList, Normal.form_eq_onePass, Text.decodeEntities,
    Text.markColons, String.toList_ofList, String.toList_ofList]

/-- The rewrites of the normal form amount to a single pass from the left over the decoded text
without its braces: each call of `constant` becomes a parenthesis, a comma a point, a semicolon a
comma, a colon its marker, and every other character stays. So the normal form holds neither braces
nor colons nor semicolons, and its commas and points are, in their order, the semicolons and the
commas and points of the decoded text: separators never become points, nor the other way round. -/
theorem normalForm_eq_onePass (text : String) :
    let decoded := (Text.decodeEntities (Text.markColons text)).toList
    (normalForm text).toList = Normal.onePass (decoded.filter fun c => c ≠ '{' ∧ c ≠ '}') ∧
    (∀ c ∈ ['{', '}', ':', ';'], c ∉ (normalForm text).toList) ∧
    (normalForm text).toList.filter (fun c => c = ',' ∨ c = '.') =
      (decoded.filter fun c => c = ';' ∨ c = ',' ∨ c = '.').map
        fun c => if c = ';' then ',' else '.' := by
  intro decoded
  have hpass : (normalForm text).toList =
      Normal.onePass (decoded.filter fun c => c ≠ '{' ∧ c ≠ '}') := toList_normalForm text
  refine ⟨hpass, fun c hc hmem => ?_, ?_⟩
  · rw [hpass] at hmem
    rcases Normal.mem_onePass hmem with ⟨hdecoded, hkept⟩ | hwritten
    · have hbrace := of_decide_eq_true (List.mem_filter.mp hdecoded).2
      simp only [List.mem_cons, List.not_mem_nil, or_false] at hc
      rcases hc with rfl | rfl | rfl | rfl
      · exact hbrace.1 rfl
      · exact hbrace.2 rfl
      · exact hkept.2 rfl
      · exact hkept.1 rfl
    · have hnone : ['{', '}', ':', ';'].all
          (fun c => c ∉ '(' :: '.' :: ',' :: Text.Marker.marker) = true := by
        decide
      exact of_decide_eq_true (List.all_eq_true.mp hnone c hc) hwritten
  · rw [hpass, Normal.filter_onePass, Normal.filter_unbraced]

/-- Both kinds of commas are decoded from entities, next to a reference and a call of `constant`. -/
theorem normalForm_eq_onePass_of_separators :
    let text := "max({a:b};1,5&#59;constant(2&#44;5))"
    normalForm text = "max(a__p__b,1.5,(2.5))" ∧
      (normalForm text).toList.filter (fun c => c = ',' ∨ c = '.') = [',', '.', ',', '.'] ∧
      ':' ∉ (normalForm text).toList := by
  intro text
  obtain ⟨hpass, hnone, hseparators⟩ := normalForm_eq_onePass text
  refine ⟨?_, ?_, hnone ':' (by decide)⟩
  · rw [← String.ofList_toList (s := normalForm text), hpass]
    decide +kernel
  · rw [hseparators]
    decide +kernel

end PriceFormula
