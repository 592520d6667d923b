import GuiMarkup.Proofs.Markup.Stretches
import GuiMarkup.Proofs.Query.Reading
import GuiMarkup.Style

/-! Where a style reports a `ref.Path` that does not read, and when that is the character
where reading stopped. -/

namespace GuiMarkup

open Markup Text Query

/-- A style whose path does not read reports it at the value start moved by the offset. -/
theorem Style.load_of_parse_error {e : Element} {a : Attribute} {err : QueryError}
    (log : Array (Pos × Issue)) (ha : e.attribute? "ref.Path" = some a)
    (hq : Query.parse a.value = .error err) :
    (Style.load e).run log =
      (none, log.push (a.valueSpan.start.shift err.offset, .badQuery err.problem)) := by
  simp [Style.load, ha, hq, report]
  rfl

/-- A style whose path does not read is reported at the start of the value moved by the offset.
Without a leading byte-order mark and with no reference or line feed before the offset, that is
where reading stopped. -/
theorem Style.load_reports_bad_query {e : Element} {a : Attribute} {err : QueryError}
    (log : Array (Pos × Issue)) (ha : e.attribute? "ref.Path" = some a)
    (hq : Query.parse a.value = .error err) :
    (Style.load e).run log =
        (none, log.push (a.valueSpan.start.shift err.offset, .badQuery err.problem)) ∧
      ∀ (t : String) (d : Element), readDocument t = .ok d → e ∈ d.subtrees →
        t.toList.head? ≠ some '\uFEFF' →
        ∃ (o : Nat) (l : AttributeText), l.chars <+: t.toList.drop o ∧ l.Shaped ∧
          l.key = "ref.Path".toList ∧ unescape l.raw = .ok a.value.toList ∧
          a.valueSpan.start = posAt t.toList (l.valueAt o) ∧
          ((∀ c ∈ l.raw.take err.offset, c ≠ '&' ∧ c ≠ '\n') →
            a.value.toList.take err.offset = l.raw.take err.offset ∧
              (posAt t.toList (l.valueAt o)).shift err.offset =
                posAt t.toList (l.valueAt o + err.offset)) := by
  refine ⟨Style.load_of_parse_error log ha hq, fun t d hd he hbom => ?_⟩
  have hmem : a ∈ e.attributes := List.mem_of_find?_eq_some ha
  have hname : a.name = "ref.Path" := by simpa using List.find?_some ha
  obtain ⟨o, l, hl, hshaped, hg⟩ := readDocument_attribute_written hd hbom he hmem
  have hplace := hg.shift_valueStart hl (offset_le_of_parse_eq_error hq)
  obtain ⟨hkey, hvalue, -, hspan, -⟩ := hg
  have hstart : a.valueSpan.start = posAt t.toList (l.valueAt o) := by rw [hspan]; rfl
  refine ⟨o, l, hl, hshaped, by rw [← hkey, hname], hvalue, hstart, fun hplain => ?_⟩
  rw [← hstart]
  exact hplace hplain

/-- The path `/A!` reads as far as `/A` and stops at the `!`. -/
private theorem parse_stops_at_bang : Query.parse "/A!" = .error ⟨2, .trailing '!'⟩ := by
  have hd : Derives 0 [.sym '/', .name "A"] (.primary ⟨false, none, none, some "A", none⟩) :=
    .up (.up (.up (.primary (@PrimaryForm.mk false [] _ [] _ _ _ _ .none (.plain "A") .none))))
  have hl : Lexes "/A!".toList [.sym '/', .name "A"] ['!'] :=
    .cons (by decide : nextToken "/A!".toList = some (.sym '/', ['A', '!']))
      (.cons (by decide : nextToken ['A', '!'] = some (.name "A", ['!'])) (.nil _))
  rw [parse_eq_trailing (c := '!') (t := []) hd hl (by decide) (by decide)]
  rfl

/-- A read text whose only element holds, under `k`, an attribute that `f` shows as `v`. -/
theorem readDocument_sole_attribute {β : Type} {t k : String} {f : Attribute → β} {v : β}
    (h : ((readDocument t).toOption.map fun d => d.elements.map fun e =>
      (e.attribute? k).map f) = some [some v]) :
    ∃ (d e : Element) (a : Attribute), readDocument t = .ok d ∧ d.elements = [e] ∧
      e.attribute? k = some a ∧ f a = v := by
  cases hd : readDocument t with
  | error _ => simp [hd, Except.toOption] at h
  | ok d =>
    have hattrs : (d.elements.map fun e => (e.attribute? k).map f) = [some v] := by
      simpa [hd, Except.toOption] using h
    obtain ⟨e, hel, hattr⟩ := List.map_eq_singleton_iff.1 hattrs
    obtain ⟨a, ha, hav⟩ := Option.map_eq_some_iff.1 hattr
    exact ⟨d, e, a, rfl, hel, ha, hav⟩

/-- The one style of a sheet has the path `/A!`, written as it reads. -/
theorem Style.load_reports_bad_query_sample :
    let t := "<Styles><Style ref.Path=\"/A!\"/></Styles>"
    ∃ (d e : Element) (a : Attribute) (err : QueryError),
      readDocument t = .ok d ∧ e ∈ d.subtrees ∧ e.attribute? "ref.Path" = some a ∧
      Query.parse a.value = .error err ∧ t.toList.head? ≠ some '\uFEFF' ∧
      (Style.load e).run #[] =
        (none, (#[] : Array (Pos × Issue)).push
          (a.valueSpan.start.shift err.offset, .badQuery err.problem)) ∧
      ∃ (o : Nat) (l : AttributeText), l.chars <+: t.toList.drop o ∧ l.Shaped ∧
        l.key = "ref.Path".toList ∧ unescape l.raw = .ok a.value.toList ∧
        a.valueSpan.start = posAt t.toList (l.valueAt o) ∧
        ((∀ c ∈ l.raw.take err.offset, c ≠ '&' ∧ c ≠ '\n') →
          a.value.toList.take err.offset = l.raw.take err.offset ∧
            (posAt t.toList (l.valueAt o)).shift err.offset =
              posAt t.toList (l.valueAt o + err.offset)) := by
  intro t
  have hbom : t.toList.head? ≠ some '\uFEFF' := by decide
  obtain ⟨d, e, a, hd, hel, ha, hvalue⟩ := readDocument_sole_attribute (f := Attribute.value)
    (by decide +kernel : ((readDocument t).toOption.map fun d => d.elements.map fun e =>
      (e.attribute? "ref.Path").map Attribute.value) = some [some "/A!"])
  have hq : Query.parse a.value = .error ⟨2, .trailing '!'⟩ := hvalue ▸ parse_stops_at_bang
  have he : e ∈ d.subtrees := Tag.mem_subtrees_of_mem_elements (by simp [hel])
  obtain ⟨hrun, hplace⟩ := Style.load_reports_bad_query #[] ha hq
  exact ⟨d, e, a, _, hd, he, ha, hq, hbom, hrun, hplace t d hd he hbom⟩

/-- A reference before the stop moves the report left: `&#47;A!` stops at the `!`, reported at
column 28 while the `!` stands at column 32. -/
theorem Style.load_reports_left_of_reference :
    let t := "<Styles><Style ref.Path=\"&#47;A!\"/></Styles>"
    ∃ (d e : Element) (a : Attribute),
      readDocument t = .ok d ∧ d.elements = [e] ∧ e.attribute? "ref.Path" = some a ∧
      Query.parse a.value = .error ⟨2, .trailing '!'⟩ ∧
      (Style.load e).run #[] = (none, #[(⟨1, 28⟩, .badQuery (.trailing '!'))]) ∧
      (t.toList.drop 31).head? = some '!' ∧ posAt t.toList 31 = ⟨1, 32⟩ := by
  intro t
  obtain ⟨d, e, a, hd, hel, ha, hav⟩ := readDocument_sole_attribute
    (f := fun a => (a.value, a.valueSpan.start))
    (by decide +kernel : ((readDocument t).toOption.map fun d => d.elements.map fun e =>
      (e.attribute? "ref.Path").map fun a => (a.value, a.valueSpan.start)) =
        some [some ("/A!", ⟨1, 26⟩)])
  obtain ⟨hvalue, hstart⟩ := Prod.mk.inj hav
  have hq : Query.parse a.value = .error ⟨2, .trailing '!'⟩ := hvalue ▸ parse_stops_at_bang
  refine ⟨d, e, a, hd, hel, ha, hq, ?_, by decide, by decide +kernel⟩
  rw [Style.load_of_parse_error #[] ha hq, hstart]
  rfl

end GuiMarkup
