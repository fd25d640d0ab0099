import PageMend.Proofs.Markup.RawText

/-!
# Reading a page event by event

A reader takes one token after the other off the text that is left (`Reader.turn`), until the text
is over or something is wrong. What it does with a token depends on its place: the tokens in the
body of a script or style sheet only steer where the body ends, and make one text when it does.

`Reader.run` takes turns until the reading is over. It reads what `parse` reads
(`Reader.result_run`), and it is over soon: a token is never empty, so there are at most as many
tokens as bytes (`Reads.length_le`), and what is read makes at most as many nodes as it has bytes
(`Reader.weight_of_turn`).
-/

namespace PageMend.Markup

/-! ## Turns -/

/-- Where in a page a reader is. -/
inductive Place where
  | page
  /-- In the body of a script or style sheet of that name, in which `depth` more elements of the
  name are open. What was read of the body is kept for later. -/
  | raw (name : List Char) (depth : Nat) (seen : List Char)
  deriving DecidableEq, Repr

namespace Place

/-- What was read and is not in the tree yet. -/
def seen : Place → List Char
  | .page => []
  | .raw _ _ seen => seen

/-- What a token adds to the tree, and where the reader is behind it. -/
def takes : Place → Lexeme → List Lexeme × Place
  | .page, l =>
    match l.token.rawTextName? with
    | none => ([l], .page)
    | some name => ([l], .raw name 0 [])
  | .raw name depth seen, l =>
    match l.token.depthBehind name depth with
    | none => (rawLexemes seen ++ [l], .page)
    | some depth => ([], .raw name depth (seen ++ l.source))

/-- How the reading ends when the text is over. A script or style sheet must not be open then. -/
def atEnd : Place → List Char → Ending
  | .page, lost => .finished lost
  | .raw name _ seen, lost =>
    .failed (.unfinishedBody (String.ofList name)) (byteLength seen + byteLength lost)

/-- All tokens of the text that is left. -/
def scan : Place → List Char → Scan
  | .page, cs => scanFrom cs
  | .raw name depth seen, cs =>
    match readBody name depth cs with
    | .broken fault consumed => ⟨[], .failed fault (byteLength seen + consumed)⟩
    | .closed body rest => (scanFrom rest).prepend (rawLexemes (seen ++ body))

end Place

/-- A page that is being read. -/
structure Reader where
  growth : Growth
  place : Place
  /-- The text that is left. -/
  rest : List Char

/-- What comes of one attempt to read a token. -/
inductive Turn where
  | goesOn (event : Lexeme) (next : Reader)
  /-- A token was read that does not fit. -/
  | refused (event : Lexeme) (rest : List Char) (error : MarkupError)
  /-- There was no token to read. -/
  | over (result : Except MarkupError Tree)

/-- How a reading went. -/
structure Course where
  /-- The tokens that were read, in scripts and style sheets too. -/
  events : List Lexeme
  /-- The text behind the last of them. -/
  left : List Char
  result : Except MarkupError Tree

/-- How a reading went that has read one token more, in front. -/
def Course.after (l : Lexeme) (c : Course) : Course := ⟨l :: c.events, c.left, c.result⟩

namespace Reader

/-- A reader at the start of a page. -/
def start (page : String) : Reader := ⟨.start, .page, withoutMark page.toList⟩

/-- Reads one token. -/
def turn (r : Reader) : Turn :=
  match readToken r.rest with
  | .finished lost => .over (r.growth.finish (r.place.atEnd lost))
  | .failed fault consumed =>
    .over (r.growth.finish (.failed fault (byteLength r.place.seen + consumed)))
  | .lexeme l rest =>
    match (r.place.takes l).1.foldlM Growth.add r.growth with
    | .error e => .refused l rest e
    | .ok growth => .goesOn l ⟨growth, (r.place.takes l).2, rest⟩

/-- A turn after which reading goes on. -/
theorem turn_eq_goesOn {r next : Reader} {l : Lexeme} (h : r.turn = .goesOn l next) :
    readToken r.rest = .lexeme l next.rest ∧ next.place = (r.place.takes l).2 ∧
      (r.place.takes l).1.foldlM Growth.add r.growth = .ok next.growth := by
  unfold turn at h
  split at h
  · cases h
  · cases h
  · rename_i hr
    split at h
    · cases h
    · rename_i hg
      cases h
      exact ⟨hr, rfl, hg⟩

/-- A turn with a token that does not fit. -/
theorem turn_eq_refused {r : Reader} {l : Lexeme} {rest : List Char} {e : MarkupError}
    (h : r.turn = .refused l rest e) :
    readToken r.rest = .lexeme l rest ∧
      (r.place.takes l).1.foldlM Growth.add r.growth = .error e := by
  unfold turn at h
  split at h
  · cases h
  · cases h
  · rename_i hr
    split at h
    · rename_i hg
      cases h
      exact ⟨hr, hg⟩
    · cases h

/-- Takes turns until the reading is over. -/
def run (r : Reader) : Course :=
  match _h : r.turn with
  | .over result => ⟨[], r.rest, result⟩
  | .refused l rest e => ⟨[l], rest, .error e⟩
  | .goesOn l next => next.run.after l
termination_by r.rest.length
decreasing_by exact length_rest_lt (turn_eq_goesOn _h).1

/-- The tokens are read one behind the other, from the start of the text on. -/
theorem reads_run (r : Reader) : Reads r.rest r.run.events r.run.left := by
  fun_induction run r with
  | case1 r => exact .nil r.rest
  | case2 r l rest e h => exact .cons (turn_eq_refused h).1 (.nil rest)
  | case3 r l next h ih => exact .cons (turn_eq_goesOn h).1 ih

end Reader

/-- How the reading of a page goes. -/
def courseOf (page : String) : Course := (Reader.start page).run

/-! ## What is read -/

namespace Place

/-- Behind a token, the tokens that are left are those of the text that is left. -/
theorem scan_of_readToken {place : Place} {cs rest : List Char} {l : Lexeme}
    (h : readToken cs = .lexeme l rest) :
    place.scan cs = ((place.takes l).2.scan rest).prepend (place.takes l).1 := by
  cases place with
  | page =>
    cases hn : l.token.rawTextName? with
    | none => simp only [scan, takes, hn, scanFrom_of_readToken h hn]
    | some name =>
      cases hb : readBody name 0 rest with
      | broken fault consumed =>
        simp [scan, takes, hn, hb, scanFrom_of_broken h hn hb, Scan.prepend]
      | closed body behind =>
        simp [scan, takes, hn, hb, scanFrom_of_readBody h hn hb, Scan.prepend]
  | raw name depth seen =>
    cases hd : l.token.depthBehind name depth with
    | none =>
      -- the token is the end tag, which the reading of a page finds again behind the body
      obtain ⟨rfl, ht⟩ := depthBehind_eq_none hd
      have hb : readBody name 0 cs = .closed [] cs := readBody_of_end ⟨l, rest, h, ht⟩
      have hn : l.token.rawTextName? = none := by rw [ht]; rfl
      simp [takes, hd, scan, hb, scanFrom_of_readToken h hn, Scan.prepend]
    | some d =>
      simp only [takes, hd, scan, readBody_of_readToken h hd]
      cases readBody name d rest with
      | broken fault consumed => simp [Body.prepend, Scan.prepend, Nat.add_assoc]
      | closed body behind => simp [Body.prepend, Scan.prepend]

theorem scan_of_finished {place : Place} {cs lost : List Char} (h : readToken cs = .finished lost) :
    place.scan cs = ⟨[], place.atEnd lost⟩ := by
  obtain ⟨rfl, -⟩ := lost_of_readToken h
  cases place with
  | page => rw [scan, scanFrom_eq, h]; rfl
  | raw name depth seen => rw [scan, readBody_eq, h]; rfl

theorem scan_of_failed {place : Place} {cs : List Char} {fault : Fault} {consumed : Nat}
    (h : readToken cs = .failed fault consumed) :
    place.scan cs = ⟨[], .failed fault (byteLength place.seen + consumed)⟩ := by
  cases place with
  | page => simp [scan, scanFrom_eq, h, seen]
  | raw name depth seen => rw [scan, readBody_eq, h]; rfl

end Place

/-- Adds the tokens of a scan and finishes as it ends. -/
def Scan.build (s : Scan) (g : Growth) : Except MarkupError Tree :=
  s.lexemes.foldlM Growth.add g >>= (·.finish s.ending)

theorem Scan.build_prepend (ls : List Lexeme) (s : Scan) (g : Growth) :
    (s.prepend ls).build g = ls.foldlM Growth.add g >>= s.build := by
  simp only [build, prepend, List.foldlM_append, bind_assoc]
  rfl

namespace Reader

theorem result_of_over {r : Reader} {result : Except MarkupError Tree}
    (h : r.turn = .over result) : result = (r.place.scan r.rest).build r.growth := by
  unfold turn at h
  split at h
  · rename_i hr
    cases h
    rw [Place.scan_of_finished hr]
    rfl
  · rename_i hr
    cases h
    rw [Place.scan_of_failed hr]
    rfl
  · split at h <;> cases h

/-- Token by token, a reader finds what all the tokens together make. -/
theorem result_run (r : Reader) : r.run.result = (r.place.scan r.rest).build r.growth := by
  fun_induction run r with
  | case1 r result h => exact result_of_over h
  | case2 r l rest e h =>
    obtain ⟨hr, hadd⟩ := turn_eq_refused h
    rw [Place.scan_of_readToken hr, Scan.build_prepend, hadd]
    rfl
  | case3 r l next h ih =>
    obtain ⟨hr, hplace, hadd⟩ := turn_eq_goesOn h
    rw [Place.scan_of_readToken hr, Scan.build_prepend, hadd, ← hplace]
    exact ih

end Reader

theorem result_courseOf (page : String) : (courseOf page).result = parse page :=
  (Reader.start page).result_run

/-! ## How long it takes -/

theorem byteLength_withoutMark_le (page : String) :
    byteLength (withoutMark page.toList) ≤ page.utf8ByteSize := by
  rw [← byteLength_toList]
  generalize page.toList = cs
  unfold withoutMark
  split
  · exact Nat.le_add_left _ _
  · exact Nat.le_refl _

/-- A token takes at least one byte. -/
theorem Reads.byteLength_pos {cs rest : List Char} {ls : List Lexeme} (h : Reads cs ls rest) :
    ∀ l ∈ ls, 0 < byteLength l.source := by
  induction h with
  | nil cs => exact fun _ h => absurd h List.not_mem_nil
  | cons first _ ih =>
    exact List.forall_mem_cons.2 ⟨Markup.byteLength_pos (source_ne_nil first), ih⟩

/-- So there are not more tokens than bytes in front of what is left. -/
theorem Reads.length_le {cs rest : List Char} {ls : List Lexeme} (h : Reads cs ls rest) :
    ls.length + byteLength rest ≤ byteLength cs := by
  induction h with
  | nil cs => simp
  | cons first _ ih =>
    have hpos := Markup.byteLength_pos (source_ne_nil first)
    have happ := congrArg byteLength (source_append_rest first)
    rw [byteLength_append] at happ
    rw [List.length_cons]
    omega

/-! ### Markup that breaks off -/

/-- Faults of the nesting show only when a tag is added to the tree, or at the end. -/
def Fault.isNesting : Fault → Bool
  | .mismatchedEnd _ _ | .strayEnd _ | .unclosed _ => true
  | _ => false

/-- If nothing can be read, that is not for the nesting, and the fault shows behind the first byte
of a text and not behind the text. -/
def BreaksIn (reading : Reading) (text : List Char) : Prop :=
  ∀ fault consumed, reading = .failed fault consumed →
    fault.isNesting = false ∧ 0 < consumed ∧ consumed ≤ byteLength text

theorem breaksIn_readSection (what : Construct) (closes : List Char → Bool)
    {token : List Char → Except Fault Token} (cs : List Char)
    (htoken : ∀ content fault, token content = .error fault → fault.isNesting = false) :
    BreaksIn (readSection what closes token cs) ('<' :: '!' :: cs) := by
  intro fault consumed h
  unfold readSection at h
  split at h
  · cases h
    exact ⟨rfl, Nat.one_pos, Nat.le_add_right 1 _⟩
  · rename_i front rest hs
    split at h
    · rename_i hfault
      cases h
      have hbytes := congrArg byteLength (splitWhere_append hs)
      have hclose : '>'.utf8Size = 1 := rfl
      have hopen : '<'.utf8Size = 1 := rfl
      have hbang : '!'.utf8Size = 1 := rfl
      simp only [byteLength_append, byteLength_cons] at hbytes
      refine ⟨htoken _ _ hfault, Nat.succ_pos _, ?_⟩
      simp only [byteLength_cons]
      omega
    · cases h

theorem breaksIn_readBang (cs : List Char) : BreaksIn (readBang cs) ('<' :: '!' :: cs) := by
  intro fault consumed h
  unfold readBang at h
  split at h
  · cases h
    exact ⟨rfl, Nat.one_pos, Nat.le_add_right 1 _⟩
  · split at h
    · refine breaksIn_readSection _ _ _ (fun content fault hf => ?_) fault consumed h
      unfold cdataOf at hf
      split at hf <;> cases hf
      rfl
    · split at h
      · refine breaksIn_readSection _ _ _ (fun content fault hf => ?_) fault consumed h
        unfold commentOf at hf
        split at hf <;> cases hf
        rfl
      · split at h
        · refine breaksIn_readSection _ _ _ (fun content fault hf => ?_) fault consumed h
          unfold doctypeOf at hf
          split at hf <;> cases hf <;> rfl
        · cases h
          exact ⟨rfl, Nat.one_pos, Nat.le_add_right 1 _⟩

theorem breaksIn_readInstruction (cs : List Char) :
    BreaksIn (readInstruction cs) ('<' :: '?' :: cs) := by
  intro fault consumed h
  have hclose : (splitAtClose cs).2.1.length ≤ 1 := List.length_take_le 1 _
  unfold readInstruction at h
  generalize splitAtClose cs = parts at h hclose
  obtain ⟨content, close, rest⟩ := parts
  dsimp only at h hclose
  split at h
  · cases h
  · cases h
    have hopen : '<'.utf8Size = 1 := rfl
    have hmark : '?'.utf8Size = 1 := rfl
    refine ⟨rfl, by omega, ?_⟩
    simp only [byteLength_cons]
    omega

theorem breaksIn_readElement (cs : List Char) : BreaksIn (readElement cs) ('<' :: cs) := by
  intro fault consumed h
  unfold readElement at h
  split at h
  · cases h
    exact ⟨rfl, Nat.one_pos, Nat.le_add_right 1 _⟩
  · cases h

theorem breaksIn_readToken (cs : List Char) : BreaksIn (readToken cs) cs := by
  intro fault consumed h
  unfold readToken at h
  split at h
  · cases h
  · split at h
    · rename_i hc
      subst hc
      unfold readTag at h
      split at h
      · cases h
      · exact breaksIn_readBang _ fault consumed h
      · cases h
      · exact breaksIn_readInstruction _ fault consumed h
      · exact breaksIn_readElement _ fault consumed h
    · cases h

/-! ### How many nodes it makes -/

theorem Tree.size_appendChild_le (t : Tree) (parent : Nat) (kind : Kind) :
    (t.appendChild parent kind).size ≤ t.size + 1 := by
  by_cases h : parent < t.size
  · exact Nat.le_of_eq (t.size_appendChild h kind)
  · rw [appendChild, dif_neg h]
    exact Nat.le_succ _

namespace Growth

/-- A token makes at most one node. -/
theorem size_addToken_le {g g' : Growth} {t : Token} (h : g.addToken t = .ok g') :
    g'.tree.size ≤ g.tree.size + 1 := by
  rcases addToken_cases h with ⟨k, -, rfl⟩ | ⟨_, _, e, -, -, -, rfl⟩ | ⟨_, _, _, -, -, -, rfl⟩
  · exact g.tree.size_appendChild_le _ k
  · exact g.tree.size_appendChild_le _ (.element e)
  · exact Nat.le_succ _

theorem size_foldlM_add_le {ls : List Lexeme} {g g' : Growth} (h : ls.foldlM add g = .ok g') :
    g'.tree.size ≤ g.tree.size + ls.length := by
  induction ls generalizing g with
  | nil =>
    cases h
    exact Nat.le_refl _
  | cons l ls ih =>
    obtain ⟨m, hm, hrest⟩ := bind_eq_ok.1 (List.foldlM_cons.symm.trans h)
    obtain ⟨m', hm', rfl⟩ := add_ok.1 hm
    have hone := size_addToken_le hm'
    have hothers := ih hrest
    have hmoved : (m'.moved (g.offset + byteLength l.source)).tree.size = m'.tree.size := rfl
    rw [List.length_cons]
    omega

theorem finish_eq_ok {g : Growth} {ending : Ending} {t : Tree} (h : g.finish ending = .ok t) :
    g.tree = t := by
  unfold finish at h
  split at h
  · cases h
  · split at h
    · cases h
      rfl
    · cases h

end Growth

/-- What a token adds to the tree and what is kept for later is not more than was read. -/
theorem Place.length_takes_le (place : Place) {l : Lexeme} (h : l.source ≠ []) :
    (place.takes l).1.length + byteLength (place.takes l).2.seen ≤
      byteLength place.seen + byteLength l.source := by
  have hpos := byteLength_pos h
  cases place with
  | page =>
    simp only [takes]
    split <;> simpa [seen, Nat.succ_le_iff] using hpos
  | raw name depth seen =>
    simp only [takes]
    split
    -- what was kept pays for the text, and the end tag for its own node
    · have hraw := Nat.le_trans (length_rawLexemes_le seen) (length_le_byteLength seen)
      simp only [List.length_append, List.length_singleton, Place.seen, byteLength_nil]
      omega
    · simp [Place.seen]

namespace Reader

/-- The nodes that are made and the bytes that can still make one. -/
def weight (r : Reader) : Nat :=
  r.growth.tree.size + (byteLength r.place.seen + byteLength r.rest)

/-- A turn makes at most as many nodes as it takes bytes. -/
theorem weight_of_turn {r next : Reader} {l : Lexeme} (h : r.turn = .goesOn l next) :
    next.weight ≤ r.weight := by
  obtain ⟨hr, hplace, hadd⟩ := turn_eq_goesOn h
  have htakes := r.place.length_takes_le (source_ne_nil hr)
  have hsize := Growth.size_foldlM_add_le hadd
  have happ := congrArg byteLength (source_append_rest hr)
  rw [byteLength_append] at happ
  rw [weight, weight, hplace]
  omega

theorem size_run_le {r : Reader} {t : Tree} (h : r.run.result = .ok t) : t.size ≤ r.weight := by
  fun_induction run r with
  | case1 r result hturn =>
    have hsize : t = r.growth.tree := by
      unfold turn at hturn
      split at hturn
      · cases hturn
        exact (Growth.finish_eq_ok h).symm
      · cases hturn
        cases h
      · split at hturn <;> cases hturn
    rw [hsize]
    exact Nat.le_add_right _ _
  | case2 => cases h
  | case3 r l next hturn ih => exact Nat.le_trans (ih h) (weight_of_turn hturn)

theorem weight_start_le (page : String) : (start page).weight ≤ page.utf8ByteSize + 1 := by
  have hmark := byteLength_withoutMark_le page
  have hseen : byteLength (start page).place.seen = 0 := rfl
  have htree : (start page).growth.tree.size = 1 := rfl
  have hrest : (start page).rest = withoutMark page.toList := rfl
  rw [weight, hseen, htree, hrest]
  omega

end Reader

/-- Every page is read to its end or to an error, token by token. A token takes at least one byte,
be it in a script or style sheet or not, and so does markup that breaks off; so there are at most as
many tokens as bytes, and fewer if some text is left. A page that is read has at most one node more
than it has bytes. -/
theorem courseOf_linear (page : String) :
    (courseOf page).result = parse page ∧
      Reads (withoutMark page.toList) (courseOf page).events (courseOf page).left ∧
      (∀ l ∈ (courseOf page).events, 0 < byteLength l.source) ∧
      (∀ fault consumed, readToken (courseOf page).left = .failed fault consumed →
        0 < consumed ∧ consumed ≤ byteLength (courseOf page).left) ∧
      (courseOf page).events.length + byteLength (courseOf page).left ≤ page.utf8ByteSize ∧
      ∀ t, parse page = .ok t → t.size ≤ page.utf8ByteSize + 1 := by
  have hreads : Reads (withoutMark page.toList) (courseOf page).events (courseOf page).left :=
    (Reader.start page).reads_run
  have hresult := result_courseOf page
  refine ⟨hresult, hreads, hreads.byteLength_pos, ?_, ?_, ?_⟩
  · intro fault consumed h
    exact (breaksIn_readToken _ fault consumed h).2
  · exact Nat.le_trans hreads.length_le (byteLength_withoutMark_le page)
  · intro t ht
    rw [← hresult] at ht
    exact Nat.le_trans (Reader.size_run_le ht) (Reader.weight_start_le page)

/-- The end of a page may cut off an end tag, which is a token all the same, but not a comment. -/
example :
    (courseOf "<style>a<b></style ").events.map (·.source.length) = [7, 1, 3, 8] ∧
      (courseOf "a<!-").left = ['<', '!', '-'] := by
  decide +kernel

end PageMend.Markup
