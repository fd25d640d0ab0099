import PageMend.Proofs.Markup.Sound

/-!
# Forests in normal form

Edits leave empty texts and texts side by side behind. Neither can be seen in what is written, so a
reader finds the forest in normal form: empty texts are dropped and neighbours joined
(`Forest.normalize`). What a rule looks at, the elements and the text in them, is the same in both
(`elements_normalize`, `text_normalize`).
-/

namespace PageMend.Markup

namespace Forest

/-! ## Normal forms -/

/-- Puts a text in front of a row, and joins it to a text that stands there. -/
def addText (body : String) : Forest Kind → Forest Kind
  | node (.text body') content next => node (.text (body ++ body')) content next
  | f => if body = "" then f else node (.text body) nil f

/-- Drops empty texts and joins texts that stand side by side. -/
def normalize : Forest Kind → Forest Kind
  | nil => nil
  | node (.text body) _ next => addText body next.normalize
  | node k content next => node k content.normalize next.normalize

/-- Whether a row starts with a text. -/
def startsText : Forest Kind → Bool
  | node (.text _) _ _ => true
  | _ => false

/-- A forest without empty texts and without texts side by side. -/
inductive Normal : Forest Kind → Prop
  | nil : Normal nil
  | text {body : String} {next : Forest Kind} (nonempty : body ≠ "")
    (apart : next.startsText = false) (rest : Normal next) :
    Normal (node (.text body) nil next)
  | node {k : Kind} {content next : Forest Kind} (other : k.text? = none) (inner : Normal content)
    (rest : Normal next) : Normal (node k content next)

/-- A forest that a reader could have made but for empty texts and texts side by side. -/
inductive Sound : Forest Kind → Prop
  | nil : Sound nil
  | text {body : String} {next : Forest Kind} (plain : '<' ∉ body.toList) (rest : Sound next) :
    Sound (node (.text body) nil next)
  | markup {s : String} {next : Forest Kind} {t : Token} (reads : t.ReadsBack)
    (makes : Growth.Makes t (.markup s)) (rest : Sound next) : Sound (node (.markup s) nil next)
  | leaf {e : Element} {next : Forest Kind} (reads : e.Readable) (isLeaf : e.isLeaf = true)
    (rest : Sound next) : Sound (node (.element e) nil next)
  | element {e : Element} {content next : Forest Kind} (reads : e.Readable)
    (stop : e.endTag.ReadsBack) (isLeaf : e.isLeaf = false) (plain : e.isRaw = false)
    (inner : Sound content) (rest : Sound next) : Sound (node (.element e) content next)
  | raw {e : Element} {content next : Forest Kind} {body : List Char} (reads : e.Readable)
    (stop : e.endTag.ReadsBack) (isLeaf : e.isLeaf = false) (isRaw : e.isRaw = true)
    (inner : RawBody e.name.toList body)
    (holds : content = nil ∧ body = [] ∨ content = Forest.leaf (.text (String.ofList body)))
    (rest : Sound next) : Sound (node (.element e) content next)

/-! ### Adding a text -/

/-- A text is joined to one at the start, is dropped if it is empty, or becomes a node. -/
theorem addText_cases (body : String) (f : Forest Kind) :
    (∃ body' content next, f = node (.text body') content next ∧
      addText body f = node (.text (body ++ body')) content next) ∨
    body = "" ∧ addText body f = f ∨
    f.startsText = false ∧ body ≠ "" ∧ addText body f = node (.text body) nil f := by
  have hother : f.startsText = false →
      addText body f = (if body = "" then f else node (.text body) nil f) →
      body = "" ∧ addText body f = f ∨
        f.startsText = false ∧ body ≠ "" ∧ addText body f = node (.text body) nil f := by
    intro hf ha
    by_cases hb : body = ""
    · rw [if_pos hb] at ha
      exact .inl ⟨hb, ha⟩
    · rw [if_neg hb] at ha
      exact .inr ⟨hf, hb, ha⟩
  cases f with
  | nil => exact .inr (hother rfl rfl)
  | node k content next =>
    cases k with
    | text body' => exact .inl ⟨body', content, next, rfl, rfl⟩
    | _ => exact .inr (hother rfl rfl)

theorem spelling_addText (body : String) (f : Forest Kind) :
    (addText body f).spelling = body.toList ++ f.spelling := by
  rcases addText_cases body f with ⟨body', content, next, rfl, ha⟩ | ⟨rfl, ha⟩ | ⟨-, -, ha⟩
  · rw [ha]
    show (body ++ body').toList ++ next.spelling = body.toList ++ (body'.toList ++ next.spelling)
    rw [String.toList_append, List.append_assoc]
  · rw [ha]
    rfl
  · rw [ha]
    rfl

theorem Normal.addText {f : Forest Kind} (h : Normal f) (body : String) :
    Normal (addText body f) := by
  rcases addText_cases body f with ⟨body', content, next, rfl, ha⟩ | ⟨-, ha⟩ | ⟨hf, hb, ha⟩
  · rw [ha]
    cases h with
    | text nonempty apart rest =>
      exact .text (fun he => nonempty (String.append_eq_empty_iff.1 he).2) apart rest
    | node other => cases other
  · rwa [ha]
  · rw [ha]
    exact .text hb hf h

theorem normal_normalize (f : Forest Kind) : Normal f.normalize := by
  induction f with
  | nil => exact .nil
  | node k content next ihc ihn =>
    cases k with
    | text body => exact ihn.addText body
    | root => exact .node rfl ihc ihn
    | element e => exact .node rfl ihc ihn
    | markup s => exact .node rfl ihc ihn

theorem Sound.addText {f : Forest Kind} (h : Sound f) {body : String} (hb : '<' ∉ body.toList) :
    Sound (addText body f) := by
  rcases addText_cases body f with ⟨body', content, next, rfl, ha⟩ | ⟨-, ha⟩ | ⟨-, -, ha⟩
  · rw [ha]
    cases h with
    | text plain rest =>
      refine .text (fun hm => ?_) rest
      rw [String.toList_append] at hm
      exact (List.mem_append.1 hm).elim hb plain
  · rwa [ha]
  · rw [ha]
    exact .text hb h

theorem Sound.normalize {f : Forest Kind} (h : Sound f) : Sound f.normalize := by
  induction h with
  | nil => exact .nil
  | text plain _ ih => exact ih.addText plain
  | markup reads makes _ ih => exact .markup reads makes ih
  | leaf reads isLeaf _ ih => exact .leaf reads isLeaf ih
  | element reads stop isLeaf plain _ _ ihc ihn => exact .element reads stop isLeaf plain ihc ihn
  | @raw e content next body reads stop isLeaf isRaw inner holds _ ih =>
    refine .raw reads stop isLeaf isRaw inner ?_ ih
    rcases holds with ⟨rfl, rfl⟩ | rfl
    · exact .inl ⟨rfl, rfl⟩
    -- an empty body is dropped, and then the element has no content
    · by_cases hb : body = []
      · rw [hb]
        exact .inl ⟨rfl, rfl⟩
      · have hne : String.ofList body ≠ "" := fun he => hb (String.ofList_eq_empty_iff.1 he)
        exact .inr (if_neg hne)

/-- A reader cannot see whether a forest is in normal form. -/
theorem spelling_normalize {f : Forest Kind} (h : Sound f) : f.normalize.spelling = f.spelling := by
  have hinner : ∀ {e : Element} {content : Forest Kind}, e.isLeaf = false →
      content.normalize.spelling = content.spelling →
      e.spelling content.normalize.isNil content.normalize.spelling =
        e.spelling content.isNil content.spelling := by
    intro e content hl hc
    rw [Element.isLeaf, Bool.or_eq_false_iff] at hl
    simp only [Element.spelling, hl.1, hl.2, Bool.and_false, Bool.false_eq_true, if_false, hc]
  induction h with
  | nil => rfl
  | text _ _ ih =>
    show (Forest.addText _ _).spelling = _
    rw [spelling_addText, ih]
    rfl
  | markup _ _ _ ih =>
    show _ ++ _ = _ ++ _
    rw [ih]
    rfl
  | leaf _ _ _ ih =>
    show _ ++ _ = _ ++ _
    rw [ih]
    rfl
  | element _ _ isLeaf _ _ _ ihc ihn =>
    show _ ++ _ = _ ++ _
    rw [ihn]
    exact congrArg (· ++ _) (hinner isLeaf ihc)
  | raw _ _ isLeaf _ _ holds _ ih =>
    show _ ++ _ = _ ++ _
    rw [ih]
    refine congrArg (· ++ _) (hinner isLeaf ?_)
    rcases holds with ⟨rfl, -⟩ | rfl
    · rfl
    · exact spelling_addText _ _

/-! ## What a rule looks at -/

/-- The character data of a forest, joined. -/
def text : Forest Kind → List Char
  | nil => []
  | node k content next => (k.text?.elim [] String.toList) ++ content.text ++ next.text

/-- The elements of a forest in document order, each with what lies below it. -/
def elements : Forest Kind → List (Element × Forest Kind)
  | nil => []
  | node k content next =>
    (k.element?.map fun e => (e, content)).toList ++ content.elements ++ next.elements

theorem text_addText (body : String) (f : Forest Kind) :
    (addText body f).text = body.toList ++ f.text := by
  rcases addText_cases body f with ⟨body', content, next, rfl, ha⟩ | ⟨rfl, ha⟩ | ⟨-, -, ha⟩
  · rw [ha]
    simp [text, Kind.text?]
  · rw [ha]
    rfl
  · rw [ha]
    simp [text, Kind.text?]

theorem elements_addText (body : String) (f : Forest Kind) :
    (addText body f).elements = f.elements := by
  rcases addText_cases body f with ⟨body', content, next, rfl, ha⟩ | ⟨-, ha⟩ | ⟨-, -, ha⟩
  · rw [ha]
    rfl
  · rw [ha]
  · rw [ha]
    rfl

/-- A forest in which nothing stands below a text. -/
inductive Bare : Forest Kind → Prop
  | nil : Bare nil
  | text {body : String} {next : Forest Kind} (rest : Bare next) :
    Bare (node (.text body) nil next)
  | node {k : Kind} {content next : Forest Kind} (other : k.text? = none) (inner : Bare content)
    (rest : Bare next) : Bare (node k content next)

theorem Sound.bare {f : Forest Kind} (h : Sound f) : Bare f := by
  induction h with
  | nil => exact .nil
  | text _ _ ih => exact .text ih
  | markup _ _ _ ih => exact .node rfl .nil ih
  | leaf _ _ _ ih => exact .node rfl .nil ih
  | element _ _ _ _ _ _ ihc ihn => exact .node rfl ihc ihn
  | raw _ _ _ _ _ holds _ ih =>
    refine .node rfl ?_ ih
    rcases holds with ⟨rfl, -⟩ | rfl
    · exact .nil
    · exact .text .nil

theorem Bare.of_mem_elements {f : Forest Kind} (h : Bare f) {p : Element × Forest Kind}
    (hp : p ∈ f.elements) : Bare p.2 := by
  induction h with
  | nil => cases hp
  | text _ ih => exact ih hp
  | @node k content next _ inner _ ihc ihn =>
    rcases List.mem_append.1 hp with hp | hp
    · rcases List.mem_append.1 hp with hp | hp
      · cases k with
        | element e =>
          obtain rfl := List.mem_singleton.1 hp
          exact inner
        | _ => cases hp
      · exact ihc hp
    · exact ihn hp

theorem normalize_node {k : Kind} (h : k.text? = none) (content next : Forest Kind) :
    (node k content next).normalize = node k content.normalize next.normalize := by
  cases k with
  | text body => cases h
  | _ => rfl

theorem text_normalize {f : Forest Kind} (h : Bare f) : f.normalize.text = f.text := by
  induction h with
  | nil => rfl
  | text _ ih =>
    show (Forest.addText _ _).text = _
    rw [text_addText, ih]
    simp [text, Kind.text?]
  | node other _ _ ihc ihn => rw [normalize_node other, text, text, ihc, ihn]

theorem elements_normalize {f : Forest Kind} (h : Bare f) :
    f.normalize.elements = f.elements.map fun p => (p.1, p.2.normalize) := by
  induction h with
  | nil => rfl
  | text _ ih =>
    show (Forest.addText _ _).elements = _
    rw [elements_addText, ih]
    rfl
  | @node k content next other _ _ ihc ihn =>
    rw [normalize_node other, elements, elements, ihc, ihn, List.map_append, List.map_append]
    cases k <;> rfl

end Forest

end PageMend.Markup
