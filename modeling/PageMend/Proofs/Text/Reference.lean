import PageMend.Proofs.Text.Pieces

/-!
# Character references

In the text of a page, a reference stands for a character: behind an ampersand, the name or the
number of the character up to a semicolon. `Text.references` lists those of a text, each by what
stands between the two.

Text is joined without harm to its references if the first part does not end in what may be the
start of one (`references_append`). So taking a marker out of a text leaves its references as they
are, if no piece in front of the marker ends so (`references_replaceAll`). No reference is lost if
the marker starts with a character that cannot stand in one (`references_sublist_replaceAll`). But
whatever the marker is, there is a text in which it does harm (`exists_references_replaceAll_ne`).
-/

namespace PageMend.Text

/-! ## What a reference is -/

/-- The characters that a name starts with. -/
def isNameStart (c : Char) : Bool :=
  let n := c.toNat
  c == ':' || c == '_' || c.isAlpha || (0xC0 ≤ n && n ≤ 0xD6) || (0xD8 ≤ n && n ≤ 0xF6) ||
  (0xF8 ≤ n && n ≤ 0x2FF) || (0x370 ≤ n && n ≤ 0x37D) || (0x37F ≤ n && n ≤ 0x1FFF) ||
  n == 0x200C || n == 0x200D || (0x2070 ≤ n && n ≤ 0x218F) || (0x2C00 ≤ n && n ≤ 0x2FEF) ||
  (0x3001 ≤ n && n ≤ 0xD7FF) || (0xF900 ≤ n && n ≤ 0xFDCF) || (0xFDF0 ≤ n && n ≤ 0xFFFD) ||
  (0x10000 ≤ n && n ≤ 0xEFFFF)

/-- The characters of names. -/
def isNameCharacter (c : Char) : Bool :=
  let n := c.toNat
  isNameStart c || c == '-' || c == '.' || c.isDigit || n == 0xB7 || (0x300 ≤ n && n ≤ 0x36F) ||
  n == 0x203F || n == 0x2040

def isHexDigit (c : Char) : Bool :=
  c.isDigit || ('a' ≤ c && c ≤ 'f') || ('A' ≤ c && c ≤ 'F')

/-- Whether the number of a character may start so, behind the sign. -/
def opensNumber : List Char → Bool
  | [] => true
  | c :: cs => if c = 'x' then cs.all isHexDigit else (c :: cs).all Char.isDigit

/-- Whether a reference may start so, behind its ampersand. -/
def opensReference : List Char → Bool
  | [] => true
  | c :: cs => if c = '#' then opensNumber cs else isNameStart c && cs.all isNameCharacter

/-- Whether this may stand between the ampersand and the semicolon of a reference: the name of a
character or its number. -/
def isReference (cs : List Char) : Bool :=
  opensReference cs && !(cs = [] || cs = ['#'] || cs = ['#', 'x'])

/-- The characters that may stand in a reference. -/
def isReferenceCharacter (c : Char) : Bool := c == '#' || isNameCharacter c

/-- The reference that stands behind an ampersand. -/
def referenceAt? (cs : List Char) : Option (List Char) :=
  let body := cs.takeWhile isReferenceCharacter
  let behind := cs.dropWhile isReferenceCharacter
  if isReference body ∧ behind.head? = some ';' then some body else none

/-- The references of a text, in order. -/
def references : List Char → List (List Char)
  | [] => []
  | c :: cs => if c = '&' then (referenceAt? cs).toList ++ references cs else references cs

/-- Whether a text ends in what may be the start of a reference. -/
def endsInReference : List Char → Bool
  | [] => false
  | c :: cs => (c == '&' && opensReference cs) || endsInReference cs

/-! ### What a reference starts with -/

theorem opensNumber_of_append {cs more : List Char} (h : opensNumber (cs ++ more) = true) :
    opensNumber cs = true := by
  cases cs with
  | nil => rfl
  | cons c cs =>
    simp only [List.cons_append, opensNumber] at h ⊢
    split
    · rename_i hx
      rw [if_pos hx, List.all_append, Bool.and_eq_true] at h
      exact h.1
    · rename_i hx
      rw [if_neg hx, ← List.cons_append, List.all_append, Bool.and_eq_true] at h
      exact h.1

/-- What a reference starts with, it starts with a part of. -/
theorem opensReference_of_append {cs more : List Char} (h : opensReference (cs ++ more) = true) :
    opensReference cs = true := by
  cases cs with
  | nil => rfl
  | cons c cs =>
    simp only [List.cons_append, opensReference] at h ⊢
    split
    · rename_i hsign
      rw [if_pos hsign] at h
      exact opensNumber_of_append h
    · rename_i hsign
      rw [if_neg hsign, List.all_append, ← Bool.and_assoc, Bool.and_eq_true] at h
      exact h.1

theorem isNameCharacter_of_isHexDigit {c : Char} (h : isHexDigit c = true) :
    isNameCharacter c = true := by
  have hletter : c.isDigit = true ∨ c.isAlpha = true := by
    simp only [isHexDigit, Bool.or_eq_true, Bool.and_eq_true, decide_eq_true_eq] at h
    rcases h with (h | ⟨hfirst, hlast⟩) | ⟨hfirst, hlast⟩
    · exact .inl h
    · have hlower : c.isLower = true := Bool.and_eq_true_iff.2
        ⟨decide_eq_true hfirst, decide_eq_true (Char.le_trans hlast (by decide : 'f' ≤ 'z'))⟩
      exact .inr (Bool.or_eq_true_iff.2 (.inr hlower))
    · have hupper : c.isUpper = true :=
        decide_eq_true ⟨hfirst, Char.le_trans hlast (by decide : 'F' ≤ 'Z')⟩
      exact .inr (Bool.or_eq_true_iff.2 (.inl hupper))
  rcases hletter with h | h
  · simp [isNameCharacter, h]
  · simp [isNameCharacter, isNameStart, h]

theorem isNameCharacter_of_isDigit {c : Char} (h : c.isDigit = true) :
    isNameCharacter c = true := by
  simp [isNameCharacter, h]

theorem isNameCharacter_of_isNameStart {c : Char} (h : isNameStart c = true) :
    isNameCharacter c = true := by
  simp [isNameCharacter, h]

theorem isReferenceCharacter_of_opensReference {cs : List Char} (h : opensReference cs = true) :
    ∀ c ∈ cs, isReferenceCharacter c = true := by
  have hname : ∀ {c}, isNameCharacter c = true → isReferenceCharacter c = true := fun h => by
    rw [isReferenceCharacter, h, Bool.or_true]
  cases cs with
  | nil => simp
  | cons c cs =>
    rw [opensReference] at h
    split at h
    · rename_i hsign
      refine List.forall_mem_cons.2 ⟨by rw [hsign]; rfl, fun d hd => hname ?_⟩
      cases cs with
      | nil => cases hd
      | cons e cs =>
        rw [opensNumber] at h
        split at h
        · rename_i hx
          rcases List.mem_cons.1 hd with rfl | hd
          · rw [hx]
            decide
          · exact isNameCharacter_of_isHexDigit (List.all_eq_true.1 h d hd)
        · exact isNameCharacter_of_isDigit (List.all_eq_true.1 h d hd)
    · rw [Bool.and_eq_true] at h
      refine List.forall_mem_cons.2 ⟨hname (isNameCharacter_of_isNameStart h.1), fun d hd => ?_⟩
      exact hname (List.all_eq_true.1 h.2 d hd)

theorem opensReference_of_isReference {cs : List Char} (h : isReference cs = true) :
    opensReference cs = true := by
  rw [isReference, Bool.and_eq_true] at h
  exact h.1

/-! ### The reference at a place -/

/-- A reference stands behind an ampersand just when its name or number and a semicolon do. -/
theorem referenceAt?_eq_some {cs body : List Char} :
    referenceAt? cs = some body ↔ isReference body = true ∧ ∃ rest, cs = body ++ ';' :: rest := by
  constructor
  · intro h
    simp only [referenceAt?] at h
    split at h
    · rename_i hbody
      obtain rfl := Option.some.inj h
      obtain ⟨rest, hrest⟩ := List.head?_eq_some_iff.1 hbody.2
      refine ⟨hbody.1, rest, ?_⟩
      rw [← hrest, List.takeWhile_append_dropWhile]
    · cases h
  · rintro ⟨hbody, rest, rfl⟩
    have hall := isReferenceCharacter_of_opensReference (opensReference_of_isReference hbody)
    have hstop : isReferenceCharacter ';' = false := by decide
    have htake : (body ++ ';' :: rest).takeWhile isReferenceCharacter = body := by
      rw [List.takeWhile_append_of_pos hall, List.takeWhile_cons_of_neg (by simp [hstop]),
        List.append_nil]
    have hdrop : (body ++ ';' :: rest).dropWhile isReferenceCharacter = ';' :: rest := by
      rw [List.dropWhile_append_of_pos hall, List.dropWhile_cons_of_neg (by simp [hstop])]
    unfold referenceAt?
    simp only [htake, hdrop]
    rw [if_pos ⟨hbody, rfl⟩]

/-- A reference that stands at a place stands there whatever comes behind. -/
theorem referenceAt?_append_of_some {cs body : List Char} (h : referenceAt? cs = some body)
    (more : List Char) : referenceAt? (cs ++ more) = some body := by
  obtain ⟨hbody, rest, rfl⟩ := referenceAt?_eq_some.1 h
  exact referenceAt?_eq_some.2 ⟨hbody, rest ++ more, by simp⟩

/-- The other way round, a reference may end in what comes behind, and has started before that. -/
theorem referenceAt?_append_cases {cs more body : List Char}
    (h : referenceAt? (cs ++ more) = some body) :
    referenceAt? cs = some body ∨
      ∃ left rest, body = cs ++ left ∧ more = left ++ ';' :: rest := by
  obtain ⟨hbody, rest, hcs⟩ := referenceAt?_eq_some.1 h
  rcases List.append_eq_append_iff.1 hcs with ⟨left, rfl, hmore⟩ | ⟨right, rfl, hrest⟩
  · exact .inr ⟨left, rest, rfl, hmore⟩
  · cases right with
    | nil => exact .inr ⟨[], rest, by simp, by simpa using hrest.symm⟩
    | cons c right =>
      obtain ⟨rfl, rfl⟩ := List.cons_eq_cons.1 hrest
      exact .inl (referenceAt?_eq_some.2 ⟨hbody, right, rfl⟩)

/-! ## Joining texts -/

/-- A text without an ampersand has no reference. -/
theorem references_eq_nil {text : List Char} (h : '&' ∉ text) : references text = [] := by
  induction text with
  | nil => rfl
  | cons c cs ih =>
    obtain ⟨hc, hcs⟩ := not_or.1 (mt List.mem_cons.2 h)
    rw [references, if_neg (Ne.symm hc), ih hcs]

/-- A text with one ampersand, at its start, has one reference at most. -/
theorem references_ampersand {cs : List Char} (h : '&' ∉ cs) :
    references ('&' :: cs) = (referenceAt? cs).toList := by
  rw [references, if_pos rfl, references_eq_nil h, List.append_nil]

theorem endsInReference_eq_false {text : List Char} (h : '&' ∉ text) :
    endsInReference text = false := by
  induction text with
  | nil => rfl
  | cons c cs ih =>
    obtain ⟨hc, hcs⟩ := not_or.1 (mt List.mem_cons.2 h)
    rw [endsInReference, ih hcs, beq_eq_false_iff_ne.2 (Ne.symm hc)]
    rfl

/-- What comes behind a text joins no reference, if the text does not end in the start of one. -/
theorem references_append {front : List Char} (h : endsInReference front = false)
    (back : List Char) : references (front ++ back) = references front ++ references back := by
  induction front with
  | nil => rfl
  | cons c cs ih =>
    rw [endsInReference, Bool.or_eq_false_iff] at h
    rw [List.cons_append, references, references, ih h.2]
    split
    · rename_i hc
      have hclosed : opensReference cs = false := by simpa [hc] using h.1
      have hsame : referenceAt? (cs ++ back) = referenceAt? cs := by
        refine Option.ext fun body => ⟨fun hbody => ?_, fun hbody =>
          referenceAt?_append_of_some hbody back⟩
        refine (referenceAt?_append_cases hbody).resolve_right ?_
        rintro ⟨left, -, rfl, -⟩
        have hopen := opensReference_of_isReference (referenceAt?_eq_some.1 hbody).1
        rw [opensReference_of_append hopen] at hclosed
        cases hclosed
      rw [hsame, List.append_assoc]
    · rfl

example : references ("R&amp;D &x;".toList ++ " &#38; & y; &#x;".toList) =
    [['a', 'm', 'p'], ['x'], ['#', '3', '8']] := by decide

/-- Joining texts loses no reference. -/
theorem references_append_sublist (front back : List Char) :
    (references front ++ references back).Sublist (references (front ++ back)) := by
  induction front with
  | nil => exact List.Sublist.refl _
  | cons c cs ih =>
    rw [List.cons_append, references, references]
    split
    · rw [List.append_assoc]
      refine List.Sublist.append ?_ ih
      cases hbody : referenceAt? cs with
      | none => exact List.nil_sublist _
      | some body => simp only [referenceAt?_append_of_some hbody, List.Sublist.refl]
    · exact ih

/-- A text without an ampersand starts no reference and goes on with none that was not started. -/
theorem endsInReference_append {front back : List Char} (h : endsInReference front = false)
    (hback : '&' ∉ back) : endsInReference (front ++ back) = false := by
  induction front with
  | nil => exact endsInReference_eq_false hback
  | cons c cs ih =>
    rw [endsInReference, Bool.or_eq_false_iff] at h
    rw [List.cons_append, endsInReference, ih h.2, Bool.or_false]
    refine Bool.eq_false_iff.2 fun hopen => ?_
    rw [Bool.and_eq_true] at hopen
    rw [hopen.1, opensReference_of_append hopen.2] at h
    cases h.1

section
variable {c : Char} {cs : List Char}

/-- A character that no reference has ends what may be the start of one. -/
theorem endsInReference_append_of_foreign (hc : isReferenceCharacter c = false)
    (hcs : '&' ∉ c :: cs) (front : List Char) : endsInReference (front ++ c :: cs) = false := by
  induction front with
  | nil => exact endsInReference_eq_false hcs
  | cons d ds ih =>
    rw [List.cons_append, endsInReference, ih, Bool.or_false]
    refine Bool.eq_false_iff.2 fun hopen => ?_
    rw [Bool.and_eq_true] at hopen
    have hmem := isReferenceCharacter_of_opensReference hopen.2 c (by simp)
    rw [hc] at hmem
    cases hmem

/-- A character that no reference has, and that ends none, leaves the references in front of it. -/
theorem references_append_of_foreign (hc : isReferenceCharacter c = false) (hstop : c ≠ ';')
    (hcs : '&' ∉ c :: cs) (front : List Char) :
    references (front ++ c :: cs) = references front := by
  induction front with
  | nil => exact references_eq_nil hcs
  | cons d ds ih =>
    have hsame : referenceAt? (ds ++ c :: cs) = referenceAt? ds := by
      refine Option.ext fun body => ⟨fun hbody => ?_, fun hbody =>
        referenceAt?_append_of_some hbody _⟩
      refine (referenceAt?_append_cases hbody).resolve_right ?_
      rintro ⟨left, rest, rfl, hmore⟩
      cases left with
      | nil => exact hstop (List.cons_eq_cons.1 hmore).1
      | cons e left =>
        obtain ⟨rfl, -⟩ := List.cons_eq_cons.1 hmore
        have hopen := opensReference_of_isReference (referenceAt?_eq_some.1 hbody).1
        rw [isReferenceCharacter_of_opensReference hopen c (by simp)] at hc
        cases hc
    rw [List.cons_append, references, references, hsame, ih]

end

/-! ## Taking a marker out -/

section
variable {pattern : List Char}

/-- The marker between texts may go, if no text in front of it ends in the start of a reference. -/
theorem references_intercalate (hpattern : '&' ∉ pattern) {texts : List (List Char)}
    (h : ∀ text ∈ texts.dropLast, endsInReference text = false) :
    references (pattern.intercalate texts) = references texts.flatten := by
  induction texts with
  | nil => rfl
  | cons text texts ih =>
    cases texts with
    | nil => simp
    | cons next rest =>
      rw [List.dropLast_cons_cons] at h
      obtain ⟨htext, hrest⟩ := List.forall_mem_cons.1 h
      rw [List.intercalate_cons_cons, List.flatten_cons,
        references_append (endsInReference_append htext hpattern), references_append htext,
        references_append htext, references_eq_nil hpattern, List.append_nil, ih hrest]

/-- The marker between texts may go without loss, if it starts with a character that no reference
has. -/
theorem references_intercalate_sublist {c : Char} {cs : List Char}
    (hc : isReferenceCharacter c = false) (hstop : c ≠ ';') (hcs : '&' ∉ c :: cs)
    (texts : List (List Char)) :
    (references ((c :: cs).intercalate texts)).Sublist (references texts.flatten) := by
  induction texts with
  | nil => exact List.Sublist.refl _
  | cons text texts ih =>
    cases texts with
    | nil => simp
    | cons next rest =>
      rw [List.intercalate_cons_cons, List.flatten_cons,
        references_append (endsInReference_append_of_foreign hc hcs text),
        references_append_of_foreign hc hstop hcs]
      exact (List.Sublist.append_left ih _).trans (references_append_sublist _ _)

/-- A marker that is taken out of a text leaves its references as they are, if no piece in front of
the marker ends in what may be the start of one. -/
theorem references_replaceAll (hpattern : '&' ∉ pattern) {text : List Char}
    (h : ∀ piece ∈ (pieces pattern text).dropLast, endsInReference piece = false) :
    references (replaceAll pattern [] text) = references text := by
  rw [← flatten_pieces, ← references_intercalate hpattern h, intercalate_pieces]

/-- A marker that starts with a character that no reference has takes no reference with it. -/
theorem references_sublist_replaceAll (hpattern : '&' ∉ pattern)
    (hforeign : ∀ c ∈ pattern.head?, isReferenceCharacter c = false ∧ c ≠ ';') (text : List Char) :
    (references text).Sublist (references (replaceAll pattern [] text)) := by
  cases pattern with
  | nil => simp only [replaceAll_nil, List.Sublist.refl]
  | cons c cs =>
    obtain ⟨hc, hstop⟩ := hforeign c rfl
    have hsublist := references_intercalate_sublist hc hstop hpattern (pieces (c :: cs) text)
    rwa [intercalate_pieces, flatten_pieces] at hsublist

/-- Whatever the marker is, there is a text whose references are not the same without it. -/
theorem exists_references_replaceAll_ne (hne : pattern ≠ []) (hpattern : '&' ∉ pattern) :
    ∃ text, occursIn pattern text = true ∧ (∀ c ∈ text, c ∈ pattern ∨ c ∈ ['&', 'a', 'b', ';']) ∧
      references (replaceAll pattern [] text) ≠ references text := by
  obtain ⟨c, cs, rfl⟩ := List.exists_cons_of_ne_nil hne
  by_cases hsemi : c :: cs = [';']
  · -- a reference loses its end
    exact ⟨['&', 'a', ';'], by rw [hsemi]; decide, by simp, by rw [hsemi]; decide +kernel⟩
  -- the marker parts an ampersand from the name of a character that does not start the marker
  obtain ⟨name, hname, hc, hreference⟩ :
      ∃ name, (name = 'a' ∨ name = 'b') ∧ c ≠ name ∧ isReference [name] = true := by
    by_cases ha : c = 'a'
    · exact ⟨'b', .inr rfl, by rw [ha]; decide, by decide⟩
    · exact ⟨'a', .inl rfl, ha, by decide⟩
  have hplain : '&' ∉ [name, ';'] := by rcases hname with rfl | rfl <;> decide
  have hmiss : ¬ ((c :: cs).isPrefixOf ('&' :: (c :: cs ++ [name, ';'])) = true) := fun hp =>
    hpattern ((List.cons_prefix_cons.1 (List.isPrefixOf_iff_prefix.1 hp)).1 ▸ List.mem_cons_self)
  have hrest : occursIn (c :: cs) [name, ';'] = false := by
    refine Bool.eq_false_iff.2 fun hin => ?_
    rcases List.infix_cons_iff.1 (occursIn_iff.1 hin) with hp | hin
    · exact hc (List.cons_prefix_cons.1 hp).1
    · rcases List.infix_cons_iff.1 hin with hp | hin
      · obtain ⟨hstop, hcs⟩ := List.cons_prefix_cons.1 hp
        exact hsemi (by rw [hstop, List.prefix_nil.1 hcs])
      · exact hne (List.infix_nil.1 hin)
  have hafter : replaceAll (c :: cs) [] ('&' :: (c :: cs ++ [name, ';'])) = ['&', name, ';'] := by
    rw [replaceAll, if_neg fun hp => hmiss hp.2, replaceAll_append hne, List.nil_append,
      replaceAll_of_not_occursIn _ hrest]
  refine ⟨'&' :: (c :: cs ++ [name, ';']), occursIn_iff.2 ⟨['&'], [name, ';'], by simp⟩, ?_, ?_⟩
  · have hname : ∀ d ∈ [name, ';'], d ∈ ['&', 'a', 'b', ';'] := by
      rcases hname with rfl | rfl <;> simp
    intro d hd
    rcases List.mem_cons.1 hd with rfl | hd
    · exact .inr List.mem_cons_self
    · exact (List.mem_append.1 hd).imp_right (hname d)
  · -- the new reference was not there before
    have hnew : referenceAt? [name, ';'] = some [name] :=
      referenceAt?_eq_some.2 ⟨hreference, [], rfl⟩
    rw [hafter, references_ampersand hplain, hnew,
      references_ampersand (mt List.mem_append.1 (not_or.2 ⟨hpattern, hplain⟩))]
    intro heq
    have hbefore : [name] ∈ (referenceAt? (c :: cs ++ [name, ';'])).toList :=
      heq ▸ List.mem_singleton.2 rfl
    obtain ⟨-, rest, hcs⟩ := referenceAt?_eq_some.1 (Option.mem_toList.1 hbefore)
    exact hc (List.cons_eq_cons.1 hcs).1

end

end PageMend.Text
