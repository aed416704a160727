import RuleSteering.Proofs.Properties.RoundTrip

/-!
# Texts one after the other

What a line means does not depend on the lines around it. So a text that ends with a line feed can be
read on its own, and the text after it on its own; of two entries with the same key the one of the later
text counts (`parse_append_eq_union`).

* `EndsLine`, a text after which a new line begins; `endsLine_render`, every written text is one;
* `entries_append`, the entries of two such texts are those of the first and then those of the second;
* `ofList_append`, the map of two lists of entries is the map of the first overwritten by the second.
-/

namespace RuleSteering.Properties

open Text

/-- After the text a new line begins: it is empty or ends with a line feed. -/
def EndsLine (text : String) : Prop :=
  text = "" ∨ ∃ s, text = s ++ "\n"

/-- Every entry of the map can be written and read back. -/
def IsReadable (p : Properties) : Prop :=
  ∀ e ∈ p.toList, Readable e.1 e.2

instance (k v : String) : Decidable (Readable k v) :=
  decidable_of_iff
    (k.toList.all (! isOddBlank ·) = true ∧ v.toList.head?.all (! isOddBlank ·) = true)
    (by cases h : v.toList.head? <;> simp [Readable, h])

instance (p : Properties) : Decidable p.IsReadable :=
  inferInstanceAs (Decidable (∀ e ∈ p.toList, Readable e.1 e.2))

theorem isReadable_iff {p : Properties} :
    p.IsReadable ↔ ∀ k v, p[k]? = some v → Readable k v := by
  simp only [IsReadable, Prod.forall, Std.ExtTreeMap.mem_toList_iff_getElem?_eq_some]

/-! ### Entries -/

/-- No line reaches beyond a line feed, so the entries on both sides of it are found on their own. -/
theorem entries_append {t₁ : String} (h : EndsLine t₁) (t₂ : String) :
    entries (t₁ ++ t₂).toList = entries t₁.toList ++ entries t₂.toList := by
  obtain rfl | ⟨s, rfl⟩ := h
  · simp
  · have htext : (s ++ "\n" ++ t₂).toList = s.toList ++ '\n' :: t₂.toList := by simp
    have hfirst : (s ++ "\n").toList = s.toList ++ ['\n'] := by simp
    rw [htext, hfirst, entries, lines_append, List.filterMap_append]
    rfl

/-- Of two entries with the same key the later one counts, also if the lists are read one by one. -/
theorem ofList_append (es fs : List (String × String)) :
    (Std.ExtTreeMap.ofList (es ++ fs) : Properties) = .ofList es ∪ .ofList fs := by
  refine Std.ExtTreeMap.ext_getElem? fun k => ?_
  rw [Std.ExtTreeMap.getElem?_union]
  simp only [getElem?_ofList, List.reverse_append, List.lookup_append]

/-! ### Texts -/

theorem parse_append {t₁ : String} (h : EndsLine t₁) (t₂ : String) :
    parse (t₁ ++ t₂) = parse t₁ ∪ parse t₂ := by
  rw [parse, entries_append h, ofList_append]
  rfl

/-- Every line is written with its end. -/
theorem endsLine_render (p : Properties) : EndsLine p.render := by
  obtain hnil | ⟨es, e, hlast⟩ := p.toList.eq_nil_or_concat
  · left
    rw [render, hnil]
    rfl
  · right
    refine ⟨String.ofList (es.flatMap renderEntry ++ line e), ?_⟩
    rw [render, hlast, List.concat_eq_append, List.flatMap_append]
    simp [renderEntry, line, String.append_assoc]

/-- If a text is empty or ends with a line feed, it is read on its own, whatever text follows it: the map
of both texts is the map of the first one overwritten by the map of the second one. No entry of either
text is lost or changed by the other one, except that of two values of a key the later one counts. So two
written maps, one after the other, are read as the first map overwritten by the second one, if no key
holds an odd blank and no value starts with one. -/
theorem parse_append_eq_union :
    (∀ t₁ t₂ : String, EndsLine t₁ →
      parse (t₁ ++ t₂) = parse t₁ ∪ parse t₂ ∧
        ∀ k : String, (parse (t₁ ++ t₂))[k]? = (parse t₂)[k]?.or (parse t₁)[k]?) ∧
      ∀ m₁ m₂ : Properties, m₁.IsReadable → m₂.IsReadable →
        parse (m₁.render ++ m₂.render) = m₁ ∪ m₂ ∧
          ∀ k : String, (parse (m₁.render ++ m₂.render))[k]? = m₂[k]?.or m₁[k]? := by
  constructor
  · intro t₁ t₂ h
    have hparse := parse_append h t₂
    refine ⟨hparse, fun k => ?_⟩
    rw [hparse, Std.ExtTreeMap.getElem?_union]
  · intro m₁ m₂ h₁ h₂
    have hparse : parse (m₁.render ++ m₂.render) = m₁ ∪ m₂ := by
      rw [parse_append (endsLine_render m₁), (parse_render_iff m₁).mpr (isReadable_iff.mp h₁),
        (parse_render_iff m₂).mpr (isReadable_iff.mp h₂)]
    refine ⟨hparse, fun k => ?_⟩
    rw [hparse, Std.ExtTreeMap.getElem?_union]

/-- The first text ends with a key without a value and a comment; the second one repeats this key, and its
last line has no end. The maps hold marks, spaces and control characters, and a key of both. -/
theorem parse_append_of_repeated_keys :
    let t₁ := "rule.a.factor = 1\nrule.b.factor\r\n# rule.c.factor = 3\n"
    let t₂ := "rule.b.factor:2\nrule.d\\:e.summand 4\\"
    let m₁ : Properties := .ofList [("rule.a b.factor", " 1"), ("#rule", "\t=x")]
    let m₂ : Properties := .ofList [("#rule", "!"), ("rule.c:\n", "2\u00a0")]
    EndsLine t₁ ∧ (parse (t₁ ++ t₂)).toList =
        [("rule.a.factor", "1"), ("rule.b.factor", "2"), ("rule.d:e.summand", "4")] ∧
      m₁.IsReadable ∧ m₂.IsReadable ∧
      (parse (m₁.render ++ m₂.render)).toList =
        [("#rule", "!"), ("rule.a b.factor", " 1"), ("rule.c:\n", "2\u00a0")] := by
  intro t₁ t₂ m₁ m₂
  have hends : EndsLine t₁ :=
    .inr ⟨"rule.a.factor = 1\nrule.b.factor\r\n# rule.c.factor = 3", by decide +kernel⟩
  have hm₁ : m₁.IsReadable := by decide +kernel
  have hm₂ : m₂.IsReadable := by decide +kernel
  obtain ⟨htexts, hmaps⟩ := parse_append_eq_union
  refine ⟨hends, ?_, hm₁, hm₂, ?_⟩
  · rw [(htexts t₁ t₂ hends).1]
    decide +kernel
  · rw [(hmaps m₁ m₂ hm₁ hm₂).1]
    decide +kernel

-- A line that is not ended runs on in the next text.
example : (parse ("rule.a.factor=1" ++ "rule.b.factor=2")).toList =
    [("rule.a.factor", "1rule.b.factor=2")] := by
  decide +kernel

end RuleSteering.Properties
