import PriceFormula.Proofs.Json.Readings

namespace PriceFormula.Json

/-- A value that nests at most `depth` deep and can be kept: its integers and floats are in range,
and the members of its objects ascend by their keys. -/
inductive Kept : Nat → Json → Prop
  | null {depth : Nat} : Kept depth null
  | bool {depth : Nat} (b : Bool) : Kept depth (bool b)
  | integer {depth : Nat} {n : Int} : -2 ^ 63 ≤ n → n < 2 ^ 64 → Kept depth (integer n)
  | float {depth : Nat} {x : Float} : x.isFinite = true → Kept depth (float x)
  | string {depth : Nat} (s : String) : Kept depth (string s)
  | array {depth : Nat} {js : List Json} : (∀ j ∈ js, Kept depth j) → Kept (depth + 1) (array js)
  | object {depth : Nat} {ms : List (String × Json)} : ms.Pairwise (fun m k => m.1 < k.1) →
    (∀ m ∈ ms, Kept depth m.2) → Kept (depth + 1) (object ms)

private theorem insertMember_last {key : String} (value : Json) {ms : List (String × Json)}
    (h : ∀ m ∈ ms, m.1 < key) : insertMember key value ms = ms ++ [(key, value)] := by
  induction ms with
  | nil => rfl
  | cons m ms ih =>
    obtain ⟨hm, hms⟩ := List.forall_mem_cons.mp h
    rw [insertMember, if_neg (String.lt_asymm hm), if_neg hm.ne', ih hms]
    rfl

private theorem mem_insertMember {key : String} {value : Json} {ms : List (String × Json)}
    {m : String × Json} (h : m ∈ insertMember key value ms) : m = (key, value) ∨ m ∈ ms := by
  induction ms with
  | nil => exact .inl (List.mem_singleton.mp h)
  | cons k ms ih =>
    rw [insertMember] at h
    split at h
    · exact List.mem_cons.mp h
    · split at h
      · rcases List.mem_cons.mp h with hm | hm
        · exact .inl hm
        · exact .inr (List.mem_cons_of_mem _ hm)
      · rcases List.mem_cons.mp h with hm | hm
        · exact .inr (List.mem_cons.mpr (.inl hm))
        · exact (ih hm).imp_right (List.mem_cons_of_mem _)

private theorem pairwise_insertMember (key : String) (value : Json) {ms : List (String × Json)}
    (h : ms.Pairwise fun m k => m.1 < k.1) :
    (insertMember key value ms).Pairwise fun m k => m.1 < k.1 := by
  induction ms with
  | nil => exact List.pairwise_singleton _ _
  | cons k ms ih =>
    obtain ⟨hk, hms⟩ := List.pairwise_cons.mp h
    rw [insertMember]
    split
    · rename_i hlt
      refine List.pairwise_cons.mpr ⟨?_, h⟩
      intro m hm
      rcases List.mem_cons.mp hm with rfl | hm
      · exact hlt
      · exact hlt.trans (hk m hm)
    · rename_i hle
      split
      · rename_i heq
        exact List.pairwise_cons.mpr ⟨fun m hm => heq ▸ hk m hm, hms⟩
      · rename_i hne
        refine List.pairwise_cons.mpr ⟨?_, ih hms⟩
        intro m hm
        rcases mem_insertMember hm with rfl | hm
        · exact lt_of_le_of_ne (not_lt.mp hle) (Ne.symm hne)
        · exact hk m hm

def Bounded (reading : FloatReading) : Prop :=
  ∀ whole fraction power x, reading whole fraction power = some x → x.isFinite = true

private theorem bounded_magnitude? : Bounded magnitude? := fun _ _ _ _ => isFinite_of_magnitude?

namespace Reader
variable {reading : FloatReading}

section Numbers
variable {rest : List Char} (hrest : Delimited rest)
include hrest

private theorem valueBy_integer {n : Int} (hlow : -2 ^ 63 ≤ n) (hhigh : n < 2 ^ 64) (depth : Nat) :
    valueBy reading true depth (write (.integer n) ++ rest) = .ok (.integer n, rest) := by
  have hvalue : numberValue reading (n < 0) (wholeParts n.natAbs).whole none none =
      .ok (.integer n) := by
    unfold numberValue
    simp only [wholeParts, Nat.ofDigitChars_ten_toDigits, decide_eq_true_eq]
    by_cases hn : n < 0
    · rw [if_pos hn, if_pos ⟨by omega, by omega⟩]
      congr 2
      omega
    · rw [if_neg hn, if_pos (by omega)]
      congr 2
      omega
  rw [write, writtenInteger_eq, valueBy_signedText (wellFormed_wholeParts _) _ _ hrest, if_pos rfl]
  change (numberValue reading _ (wholeParts n.natAbs).whole none none).map _ = _
  rw [hvalue]
  rfl

private theorem valueBy_float (hreading : CorrectlyRounded reading) {x : Float}
    (hx : x.isFinite = true)
    (depth : Nat) :
    valueBy reading true depth (write (.float x) ++ rest) = .ok (.float x, rest) := by
  obtain ⟨p, hlays, hfloat, htext⟩ := exists_writtenFloat_signed hx
  have hfinite : p.decimal.toFloat.isFinite = true := hfloat ▸ Number.isFinite_abs hx
  have hvalue := numberValue_of_isFloat hlays.isFloat (hreading.reads hlays.wellFormed hfinite)
    (Number.isNegative x)
  rw [hfloat, Number.signed_abs hx] at hvalue
  rw [write, htext, valueBy_signedText hlays.wellFormed _ _ hrest, if_pos rfl, hvalue]
  rfl

end Numbers

private theorem feeds_kept {depth : Nat} {gathered ms : List (String × Json)}
    (h : ∀ m ∈ ms, Takes (valueBy reading true depth) m.2 m.2)
    (hkeys : (gathered ++ ms).Pairwise fun m k => m.1 < k.1) :
    Feeds (valueBy.member true (valueBy reading true depth)) gathered ms (gathered ++ ms) := by
  induction ms generalizing gathered with
  | nil =>
    rw [List.append_nil]
    exact .nil gathered
  | cons m ms ih =>
    obtain ⟨hm, hms⟩ := List.forall_mem_cons.mp h
    rw [List.append_cons] at hkeys ⊢
    have hlast : ∀ k ∈ gathered, k.1 < m.1 := by
      intro k hk
      have hpair := (List.pairwise_append.mp (List.pairwise_append.mp hkeys).1).2.2
      exact hpair k hk m List.mem_cons_self
    refine .cons rfl (fun rest hrest => ?_) (ih hms hkeys)
    rw [hm rest hrest, ok_bind]
    simp only [if_true, insertMember_last m.2 hlast]

theorem takes_string (s : String) (depth : Nat) :
    Takes (valueBy reading true depth) (.string s) (.string s) := by
  intro rest _
  rw [write]
  exact valueBy_string s depth rest

/-- An array reads back if its items do. -/
theorem takes_array {depth : Nat} {js : List Json}
    (h : ∀ j ∈ js, Takes (valueBy reading true depth) j j) :
    Takes (valueBy reading true (depth + 1)) (.array js) (.array js) := by
  intro rest _
  have hitems := arrayTail_written (f := id) h rest
  rw [write, List.cons_append, List.append_assoc, List.singleton_append, valueBy_array, hitems,
    List.map_id]
  rfl

/-- An object whose keys ascend reads back if the values of its members do. -/
theorem takes_object {depth : Nat} {ms : List (String × Json)}
    (h : ∀ m ∈ ms, Takes (valueBy reading true depth) m.2 m.2)
    (hkeys : ms.Pairwise fun m k => m.1 < k.1) :
    Takes (valueBy reading true (depth + 1)) (.object ms) (.object ms) := by
  intro rest _
  have hmembers : Feeds (valueBy.member true (valueBy reading true depth)) [] ms ms :=
    feeds_kept h hkeys
  rw [write, List.cons_append, List.append_assoc, List.singleton_append, valueBy_object,
    objectTail_written hmembers]
  rfl

/-- A kept value reads back as it was written. -/
theorem takes_kept (hreading : CorrectlyRounded reading) {depth : Nat} {j : Json}
    (h : Kept depth j) : Takes (valueBy reading true depth) j j := by
  induction h with
  | null => exact fun rest _ => valueBy_null _ rest
  | bool b => exact fun rest _ => valueBy_bool b _ rest
  | integer hlow hhigh => exact fun rest hrest => valueBy_integer hrest hlow hhigh _
  | float hx => exact fun rest hrest => valueBy_float hrest hreading hx _
  | string s => exact takes_string s _
  | array _ ih => exact takes_array ih
  | object hkeys _ ih => exact takes_object ih hkeys

private theorem eq_of_word {w s rest : List Char} {j k : Json}
    (h : (word w s >>= fun r => .ok (k, r.2)) = .ok (j, rest)) : j = k := by
  obtain ⟨_, -, h⟩ := bind_eq_ok.mp h
  exact (Prod.mk.inj (Except.ok.inj h)).1.symm

private def KeptMembers (depth : Nat) (ms : List (String × Json)) : Prop :=
  ms.Pairwise (fun m k => m.1 < k.1) ∧ ∀ m ∈ ms, Kept depth m.2

private theorem keptMembers_member {depth : Nat} {value read : Reader _}
    (hvalue : ∀ s j rest, value s = .ok (j, rest) → Kept depth j)
    {ms ms' : List (String × Json)} {name : String} {s rest : List Char} (hms : KeptMembers depth ms)
    (hfield : valueBy.member true value ms name = .ok read) (hread : read s = .ok (ms', rest)) :
    KeptMembers depth ms' := by
  obtain rfl := Except.ok.inj hfield
  obtain ⟨⟨v, _⟩, hv, h⟩ := bind_eq_ok.mp hread
  obtain ⟨rfl, -⟩ := Prod.mk.inj (Except.ok.inj h)
  refine ⟨pairwise_insertMember name v hms.1, ?_⟩
  intro m hm
  rcases mem_insertMember hm with rfl | hm
  · exact hvalue _ _ _ hv
  · exact hms.2 m hm

section Given
variable (hreading : Bounded reading)
include hreading

private theorem kept_of_numberValue {negative : Bool} {whole : List Char}
    {fraction : Option (List Char)}
    {power : Option Int} {j : Json} (h : numberValue reading negative whole fraction power = .ok j)
    (depth : Nat) : Kept depth j := by
  unfold numberValue at h
  extract_lets float n at h
  have hfloat : float = .ok j → Kept depth j := by
    intro h
    unfold float at h
    split at h
    · rename_i x hx
      obtain rfl := Except.ok.inj h
      have hfinite := hreading _ _ _ _ hx
      cases negative with
      | true => exact .float (Number.isFinite_neg hfinite)
      | false => exact .float hfinite
    · cases h
  split at h
  · split at h
    · split at h
      · rename_i hsmall
        obtain rfl := Except.ok.inj h
        rw [Nat.shiftLeft_eq] at hsmall
        exact .integer (by omega) (by omega)
      · exact hfloat h
    · split at h
      · rename_i hsmall
        obtain rfl := Except.ok.inj h
        rw [Nat.shiftLeft_eq] at hsmall
        exact .integer (by omega) (by omega)
      · exact hfloat h
  · exact hfloat h

private theorem kept_of_numberTail {negative : Bool} {s rest : List Char} {j : Json}
    (h : numberTail reading true negative s = .ok (j, rest)) (depth : Nat) : Kept depth j := by
  obtain ⟨whole, -, h⟩ := bind_eq_ok.mp h
  obtain ⟨fraction, -, h⟩ := bind_eq_ok.mp h
  obtain ⟨power, -, h⟩ := bind_eq_ok.mp h
  obtain ⟨n, hn, h⟩ := bind_eq_ok.mp h
  obtain ⟨rfl, -⟩ := Prod.mk.inj (Except.ok.inj h)
  exact kept_of_numberValue hreading hn depth

/-- Every value that is read can be kept. -/
theorem kept_of_valueBy {depth : Nat} {s rest : List Char} {j : Json}
    (h : valueBy reading true depth s = .ok (j, rest)) : Kept depth j := by
  induction depth using Nat.strongRecOn generalizing s rest j with
  | ind depth ih =>
    unfold valueBy at h
    split at h
    · cases h
    · split at h
      · exact eq_of_word h ▸ .null
      · exact eq_of_word h ▸ .bool true
      · exact eq_of_word h ▸ .bool false
      · obtain ⟨text, -, h⟩ := bind_eq_ok.mp h
        obtain ⟨rfl, -⟩ := Prod.mk.inj (Except.ok.inj h)
        exact .string _
      · exact kept_of_numberTail hreading h _
      · split at h
        · cases h
        · rename_i depth
          obtain ⟨⟨js, _⟩, hjs, h⟩ := bind_eq_ok.mp h
          obtain ⟨rfl, -⟩ := Prod.mk.inj (Except.ok.inj h)
          exact .array (forall_mem_items (fun _ _ _ => ih depth (Nat.lt_succ_self _)) hjs)
      -- the members gathered so far are kept and ascend: the invariant of the loop
      · split at h
        · cases h
        · rename_i depth
          obtain ⟨⟨ms, _⟩, hms, h⟩ := bind_eq_ok.mp h
          obtain ⟨rfl, -⟩ := Prod.mk.inj (Except.ok.inj h)
          obtain ⟨hkeys, hvalues⟩ := members_invariant (I := KeptMembers depth)
            (fun _ _ _ _ _ _ hg hfield hread => keptMembers_member
              (fun _ _ _ => ih depth (Nat.lt_succ_self _)) hg hfield hread)
            ⟨List.Pairwise.nil, List.forall_mem_nil _⟩ hms
          exact .object hkeys hvalues
      · split at h
        · exact kept_of_numberTail hreading h _
        · cases h

end Given

end Reader

/-- Every value that a text denotes can be kept. -/
theorem kept_of_ofText {text : String} {j : Json} (h : Json.ofText text = .ok j) :
    Kept depthLimit j := by
  obtain ⟨⟨_, rest⟩, hread, h⟩ := bind_eq_ok.mp h
  dsimp only at h
  split at h
  · obtain rfl := Except.ok.inj h
    exact Reader.kept_of_valueBy bounded_magnitude? hread
  · cases h

end PriceFormula.Json
