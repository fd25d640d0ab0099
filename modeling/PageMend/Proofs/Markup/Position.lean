import PageMend.Proofs.Markup.Nesting
import PageMend.Proofs.Markup.Events

/-!
# Where a fault of the nesting shows

A page whose tags are not well nested is refused with a position. For an end tag that does not fit
(`Offends`) it is the number of bytes up to the end of this tag, for an element that is never closed
the number of bytes of the page (`position_of_parse`).

The bytes are counted from behind a byte-order mark, which the reader skips. So on a page with a
mark the position is not the place on the page (`position_behind_mark`).
-/

namespace PageMend.Markup

/-! ## Other faults -/

theorem isNesting_of_readBody {name cs : List Char} {depth consumed : Nat} {fault : Fault}
    (h : readBody name depth cs = .broken fault consumed) : fault.isNesting = false := by
  fun_induction readBody name depth cs generalizing consumed with
  | case1 =>
    cases h
    rfl
  | case2 depth cs fault' consumed' hr =>
    cases h
    exact (breaksIn_readToken cs _ _ hr).1
  | case3 => cases h
  | case4 depth cs l rest hr d hd ih =>
    cases hb : readBody name d rest with
    | broken fault' consumed' =>
      rw [hb] at h
      cases h
      exact ih hb
    | closed body behind =>
      rw [hb] at h
      cases h

/-- What breaks off the reading of tokens has nothing to do with the nesting. -/
theorem isNesting_of_scanFrom {cs : List Char} {fault : Fault} {consumed : Nat}
    (h : (scanFrom cs).ending = .failed fault consumed) : fault.isNesting = false := by
  fun_induction scanFrom cs with
  | case1 => cases h
  | case2 cs fault' consumed' hr =>
    cases h
    exact (breaksIn_readToken cs _ _ hr).1
  | case3 cs l rest hr _ ih => exact ih h
  | case4 cs l rest hr name _ fault' consumed' hb =>
    cases h
    exact isNesting_of_readBody hb
  | case5 cs l rest hr name _ body rest' hb ih => exact ih h

/-! ## The place of a token -/

/-- The mark at the start of a text, if there is one. -/
def mark : List Char → List Char
  | '\uFEFF' :: _ => ['\uFEFF']
  | _ => []

theorem mark_append (cs : List Char) : mark cs ++ withoutMark cs = cs := by
  unfold mark
  split
  · rfl
  · rename_i h
    refine withoutMark_eq_self fun hhead => ?_
    obtain ⟨tail, htail⟩ := List.head?_eq_some_iff.1 hhead
    exact h tail htail

/-- The sources of the tokens stand at the front of a text, however its reading ends. -/
theorem flatMap_source_prefix (cs : List Char) :
    (scanFrom cs).lexemes.flatMap Lexeme.source <+: cs := by
  fun_induction scanFrom cs with
  | case1 => exact List.nil_prefix
  | case2 => exact List.nil_prefix
  | case3 cs l rest hr _ ih =>
    rw [← source_append_rest hr]
    simpa [Scan.prepend] using ih
  | case4 cs l rest hr =>
    rw [← source_append_rest hr]
    simp
  | case5 cs l rest hr _ _ body rest' hb ih =>
    rw [← source_append_rest hr, ← append_of_readBody hb]
    simpa [Scan.prepend, flatMap_source_rawLexemes] using ih

/-- The text of a page through the first of its tokens. -/
def through (page : String) (ls : List Lexeme) : List Char :=
  mark page.toList ++ ls.flatMap Lexeme.source

theorem through_prefix {page : String} {ls : List Lexeme} (h : ls <+: (scan page).lexemes) :
    through page ls <+: page.toList := by
  obtain ⟨others, hothers⟩ := h
  obtain ⟨behind, hbehind⟩ := flatMap_source_prefix (withoutMark page.toList)
  have hscan : (scanFrom (withoutMark page.toList)).lexemes = ls ++ others := hothers.symm
  refine ⟨others.flatMap Lexeme.source ++ behind, ?_⟩
  rw [hscan, List.flatMap_append, List.append_assoc] at hbehind
  rw [through, List.append_assoc, hbehind, mark_append]

/-! ## The end tag that does not fit -/

/-- What is wrong with an end tag that does not close the innermost of the open elements. -/
def endFault (names : List (List Char)) (found : List Char) : Fault :=
  match names with
  | [] => .strayEnd (String.ofList found)
  | expected :: _ => .mismatchedEnd (String.ofList expected) (String.ofList found)

/-- The fault names the end tag. -/
theorem toList_of_endFault {names : List (List Char)} {found : List Char} {name : String}
    (h : endFault names found = .strayEnd name ∨
      ∃ expected, endFault names found = .mismatchedEnd expected name) : name.toList = found := by
  cases names <;> rcases h with h | ⟨expected, h⟩ <;> cases h <;> exact String.toList_ofList

/-- The tags in front of an end tag leave open some names. The end tag does not close the innermost
of them. -/
structure Offends (page : String) (front : List Lexeme) (tag : Lexeme) (names : List (List Char))
    (found : List Char) : Prop where
  scanned : front ++ [tag] <+: (scan page).lexemes
  opened : nest [] ((front.map Lexeme.token).filterMap Token.bracket?) = some names
  isEnd : tag.token = .endTag found
  refused : tag.token.nest names = none

/-- No token behind such an end tag fits any more. -/
theorem Offends.not_prefix {page : String} {front front' : List Lexeme} {tag tag' : Lexeme}
    {names names' : List (List Char)} {found found' : List Char}
    (h : Offends page front tag names found) (h' : Offends page front' tag' names' found') :
    ¬ front ++ [tag] <+: front' := by
  rintro ⟨between, rfl⟩
  have hopened := h'.opened
  rw [List.append_assoc, List.map_append, List.filterMap_append, nest_append, h.opened,
    Option.bind_some, List.singleton_append, List.map_cons, nest_filterMap_cons,
    h.refused] at hopened
  cases hopened

/-- So a page has at most one. -/
theorem Offends.unique {page : String} {front front' : List Lexeme} {tag tag' : Lexeme}
    {names names' : List (List Char)} {found found' : List Char}
    (h : Offends page front tag names found) (h' : Offends page front' tag' names' found') :
    front' = front ∧ tag' = tag := by
  have hfront' : front' <+: (scan page).lexemes := (List.prefix_append _ _).trans h'.scanned
  have hfront : front <+: (scan page).lexemes := (List.prefix_append _ _).trans h.scanned
  -- both are fronts of the same list, and neither tag stands in front of the other
  have hlen : front'.length = front.length := by
    by_contra hne
    rcases Nat.lt_or_gt_of_ne hne with hlt | hlt
    · refine h'.not_prefix h (List.prefix_of_prefix_length_le h'.scanned hfront ?_)
      simpa [Nat.succ_le_iff] using hlt
    · refine h.not_prefix h' (List.prefix_of_prefix_length_le h.scanned hfront' ?_)
      simpa [Nat.succ_le_iff] using hlt
  have hsame : front' ++ [tag'] = front ++ [tag] :=
    (List.prefix_of_prefix_length_le h'.scanned h.scanned (by simp [hlen])).eq_of_length
      (by simp [hlen])
  obtain ⟨hfronts, htags⟩ := List.append_inj hsame hlen
  exact ⟨hfronts, List.singleton_inj.1 htags⟩

namespace Growth

/-- A token that cannot be added for the nesting is an end tag that does not fit. -/
theorem addToken_eq_error {g : Growth} {t : Token} {fault : Fault}
    (h : g.addToken t = .error fault) (hnesting : fault.isNesting = true) :
    ∃ found, t = .endTag found ∧ t.nest g.names = none ∧ fault = endFault g.names found := by
  cases t with
  | startTag name attributes | emptyTag name attributes =>
    simp only [addToken] at h
    split at h
    · cases h
      cases hnesting
    · cases h
  | endTag name =>
    refine ⟨name, rfl, ?_⟩
    simp only [addToken] at h
    split at h
    · cases h
    · rename_i hvoid
      have hbracket : (Token.endTag name).bracket? = some (.closing name) := if_neg hvoid
      rw [Token.nest, hbracket, names]
      split at h
      · rename_i ho
        cases h
        rw [ho]
        exact ⟨rfl, rfl⟩
      · rename_i ho
        split at h
        · cases h
        · rename_i hne
          cases h
          rw [ho]
          exact ⟨if_neg hne, rfl⟩
  | _ => cases h

/-- If tokens cannot be added, one of them is the first that cannot. -/
theorem foldlM_add_eq_error {ls : List Lexeme} {g : Growth} {e : MarkupError}
    (h : ls.foldlM add g = .error e) :
    ∃ front l m, front ++ [l] <+: ls ∧ front.foldlM add g = .ok m ∧ m.add l = .error e := by
  induction ls generalizing g with
  | nil => cases h
  | cons l ls ih =>
    cases hadd : g.add l with
    | error e' =>
      rw [List.foldlM_cons, hadd] at h
      cases h
      exact ⟨[], l, g, ⟨ls, rfl⟩, rfl, hadd⟩
    | ok g' =>
      rw [List.foldlM_cons, hadd] at h
      obtain ⟨front, l', m, hfirst, hfront, hl'⟩ := ih h
      refine ⟨l :: front, l', m, (List.cons_prefix_cons).2 ⟨rfl, hfirst⟩, ?_, hl'⟩
      rw [List.foldlM_cons, hadd]
      exact hfront

theorem add_eq_error {g : Growth} {l : Lexeme} {e : MarkupError} (h : g.add l = .error e) :
    g.addToken l.token = .error e.fault ∧ e.position = g.offset + byteLength l.source := by
  simp only [add] at h
  split at h
  · rename_i hfault
    cases h
    exact ⟨hfault, rfl⟩
  · cases h

/-- What is open and how many bytes were read behind some tokens. -/
theorem state_of_foldlM_add {ls : List Lexeme} {m : Growth} (h : ls.foldlM add start = .ok m) :
    nest [] ((ls.map Lexeme.token).filterMap Token.bracket?) = some m.names ∧
      m.offset = byteLength (ls.flatMap Lexeme.source) := by
  obtain ⟨m', hm', rfl⟩ := foldlM_add_ok.1 h
  exact ⟨(exists_grow_iff.1 ⟨m', hm', rfl⟩).2, Nat.zero_add _⟩

theorem finish_eq_error {g : Growth} {ending : Ending} {e : MarkupError}
    (h : g.finish ending = .error e) (hnesting : ∀ fault consumed, ending = .failed fault consumed →
      fault.isNesting = false) (he : e.fault.isNesting = true) :
    ∃ lost name names, ending = .finished lost ∧ g.names = name :: names ∧
      e = ⟨g.offset + byteLength lost, .unclosed (String.ofList name)⟩ := by
  cases ending with
  | failed fault consumed =>
    cases h
    cases (hnesting fault consumed rfl).symm.trans he
  | finished lost =>
    simp only [finish] at h
    split at h
    · cases h
    · rename_i id name opened ho
      cases h
      exact ⟨lost, name, opened.map Prod.snd, rfl, by rw [names, ho]; rfl, rfl⟩

end Growth

/-! ## Positions -/

/-- A page is refused for its nesting because of an end tag that does not fit or because the text is
over while an element is open. -/
theorem parse_eq_error {page : String} {e : MarkupError} (h : parse page = .error e)
    (he : e.fault.isNesting = true) :
    (∃ front tag names found, Offends page front tag names found ∧ e.fault = endFault names found ∧
        e.position = byteLength ((front ++ [tag]).flatMap Lexeme.source)) ∨
      ∃ name names, e.fault = .unclosed (String.ofList name) ∧
        nest [] ((scan page).tokens.filterMap Token.bracket?) = some (name :: names) ∧
        e.position = byteLength (withoutMark page.toList) := by
  have hparse : parse page = (scan page).lexemes.foldlM Growth.add Growth.start >>=
      (·.finish (scan page).ending) := rfl
  cases hfold : (scan page).lexemes.foldlM Growth.add Growth.start with
  | error e' =>
    rw [hparse, hfold] at h
    cases h
    -- the tokens in front of the first that cannot be added tell what is open there
    obtain ⟨front, tag, m, hfirst, hfront, htag⟩ := Growth.foldlM_add_eq_error hfold
    obtain ⟨hfault, hposition⟩ := Growth.add_eq_error htag
    obtain ⟨found, hfound, hrefused, hwhat⟩ := Growth.addToken_eq_error hfault he
    obtain ⟨hopened, hoffset⟩ := Growth.state_of_foldlM_add hfront
    refine .inl ⟨front, tag, m.names, found, ⟨hfirst, hopened, hfound, hrefused⟩, hwhat, ?_⟩
    rw [hposition, hoffset]
    simp
  | ok g =>
    rw [hparse, hfold] at h
    -- all tokens fit, so the fault shows behind the last of them and what is lost
    obtain ⟨hopened, hoffset⟩ := Growth.state_of_foldlM_add hfold
    obtain ⟨lost, name, names, hending, hnames, rfl⟩ :=
      Growth.finish_eq_error h (fun _ _ => isNesting_of_scanFrom) he
    rw [hnames] at hopened
    refine .inr ⟨name, names, rfl, hopened, ?_⟩
    have hsources : (scan page).lexemes.flatMap Lexeme.source ++ lost = withoutMark page.toList :=
      (flatMap_source_scanFrom hending).1
    show g.offset + byteLength lost = _
    rw [hoffset, ← hsources, byteLength_append]

/-- The position of an end tag that does not fit is the place just behind the tag, which is the one
end tag of the page that closes something else than the innermost of the elements open in front of
it. The position of an element that is never closed is the end of the page. The bytes of a mark at
the start of the page are not counted. -/
theorem position_of_parse {page : String} {e : MarkupError} (h : parse page = .error e) :
    (∀ found, e.fault = .strayEnd found ∨ (∃ expected, e.fault = .mismatchedEnd expected found) →
      ∃ front tag names, Offends page front tag names found.toList ∧
        (∀ front' tag' names' found', Offends page front' tag' names' found' →
          front' = front ∧ tag' = tag) ∧
        e.fault = endFault names found.toList ∧
        through page (front ++ [tag]) <+: page.toList ∧
        e.position + byteLength (mark page.toList) =
          byteLength (through page (front ++ [tag]))) ∧
    ∀ name, e.fault = .unclosed name →
      (∃ names, nest [] ((scan page).tokens.filterMap Token.bracket?) =
        some (name.toList :: names)) ∧
      e.position + byteLength (mark page.toList) = page.utf8ByteSize := by
  constructor
  · intro found hfault
    have hnesting : e.fault.isNesting = true := by
      rcases hfault with hfault | ⟨expected, hfault⟩ <;> rw [hfault] <;> rfl
    rcases parse_eq_error h hnesting with
      ⟨front, tag, names, found', hoffends, hwhat, hposition⟩ | ⟨name, names, hwhat, -, -⟩
    · obtain rfl : found.toList = found' := toList_of_endFault (hwhat ▸ hfault)
      refine ⟨front, tag, names, hoffends, fun _ _ _ _ h' => hoffends.unique h', hwhat,
        through_prefix hoffends.scanned, ?_⟩
      rw [hposition, through, byteLength_append, Nat.add_comm]
    · rw [hwhat] at hfault
      rcases hfault with hfault | ⟨expected, hfault⟩ <;> cases hfault
  · intro name hfault
    have hnesting : e.fault.isNesting = true := by rw [hfault]; rfl
    rcases parse_eq_error h hnesting with
      ⟨front, tag, names, found', -, hwhat, -⟩ | ⟨name', names, hwhat, hopened, hposition⟩
    · rw [hfault] at hwhat
      cases names <;> cases hwhat
    · rw [hfault] at hwhat
      cases hwhat
      refine ⟨⟨names, by simpa using hopened⟩, ?_⟩
      rw [hposition, Nat.add_comm, ← byteLength_append, mark_append, byteLength_toList]

theorem eq_error_of_map {ε α β : Type} {x : Except ε α} {f : α → β} {e : ε}
    (h : x.map f = .error e) : x = .error e := by
  cases x with
  | error e' =>
    cases h
    rfl
  | ok a => cases h

/-- Nine bytes stand up to the end of the tag, as the letter takes two. -/
theorem position_of_mismatched_end :
    parse "<p>\u00E9</b> " = .error ⟨9, .mismatchedEnd "p" "b"⟩ ∧
      ∃ front tag, through "<p>\u00E9</b> " (front ++ [tag]) <+: "<p>\u00E9</b> ".toList ∧
        byteLength (through "<p>\u00E9</b> " (front ++ [tag])) = 9 := by
  have h : parse "<p>\u00E9</b> " = .error ⟨9, .mismatchedEnd "p" "b"⟩ :=
    eq_error_of_map (f := fun _ => ()) (by decide +kernel)
  obtain ⟨front, tag, -, -, -, -, hfirst, hposition⟩ :=
    (position_of_parse h).1 "b" (.inr ⟨"p", rfl⟩)
  exact ⟨h, front, tag, hfirst, hposition.symm⟩

/-- A mark at the start of the page is not counted: the position points into the tag. -/
theorem position_behind_mark :
    ¬ ∀ page e front tag names found, parse page = .error e → Offends page front tag names found →
      e.fault = endFault names found →
      e.position = byteLength (through page (front ++ [tag])) := by
  intro hall
  have h : parse "\uFEFF</p>" = .error ⟨4, .strayEnd "p"⟩ :=
    eq_error_of_map (f := fun _ => ()) (by decide +kernel)
  have hoffends : Offends "\uFEFF</p>" [] ⟨.endTag ['p'], ['<', '/', 'p', '>']⟩ [] ['p'] :=
    ⟨by decide +kernel, rfl, rfl, by decide⟩
  have hposition := hall _ _ _ _ _ _ h hoffends rfl
  revert hposition
  decide

end PageMend.Markup
