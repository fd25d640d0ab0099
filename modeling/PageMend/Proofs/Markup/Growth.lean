import PageMend.Markup.Parse
import PageMend.Proofs.Markup.Forest
import PageMend.Proofs.Markup.Legible

/-!
# How a tree grows

While a page is read, the tree is a forest with a path of open elements in it. `Grown` describes it
by its frames, innermost first: an open element and the row of nodes in front of it; `here` is the
row in the innermost element. A token is put behind `here`, or opens a frame, or closes one, and
each of the three leaves all else alone (`Shows.put`, `Shows.open`, `Shows.close`).

What has been read so far is written in the frames (`addToken_written`), so a page that was read
is written as its tokens are (`serialize_of_parse`), and read from what it is written as it is the
same tree (`parse_serialize`).
-/

namespace PageMend.Markup

/-! ## Forests with a path of open nodes -/

namespace Forest

variable {α β : Type}

/-- The forest of some frames. Each is an open node and the row in front of it. -/
def close : List (α × Forest α) → Forest α → Forest α
  | [], here => here
  | (a, left) :: frames, here => close frames (left ++ node a here nil)

/-- What stands in front of the innermost row, in document order. -/
def trail : List (α × Forest α) → List α
  | [] => []
  | (a, left) :: frames => trail frames ++ left.preorder ++ [a]

theorem preorder_close (frames : List (α × Forest α)) (here : Forest α) :
    (close frames here).preorder = trail frames ++ here.preorder := by
  induction frames generalizing here with
  | nil => rfl
  | cons frame frames ih =>
    obtain ⟨a, left⟩ := frame
    simp [close, trail, ih, preorder]

/-- Labels that do not occur in front of the innermost row do not matter to the frames. -/
theorem map_frames_congr {f g : α → β} {frames : List (α × Forest α)}
    (hfg : ∀ a ∈ trail frames, f a = g a) :
    frames.map (fun fr => (f fr.1, fr.2.map f)) = frames.map fun fr => (g fr.1, fr.2.map g) := by
  induction frames with
  | nil => rfl
  | cons frame frames ih =>
    obtain ⟨a, left⟩ := frame
    have hleft : left.map f = left.map g := map_congr fun b hb => hfg b (by simp [trail, hb])
    have hrest := ih fun b hb => hfg b (by simp [trail, hb])
    rw [List.map_cons, List.map_cons, hrest, hleft, hfg a (by simp [trail])]

variable [DecidableEq α]

/-- What is added below a node that is not open is added in the innermost row. -/
theorem graft_close {a : α} {frames : List (α × Forest α)} (h : a ∉ trail frames)
    (f here : Forest α) : (close frames here).graft a f = close frames (here.graft a f) := by
  induction frames generalizing here with
  | nil => rfl
  | cons frame frames ih =>
    obtain ⟨b, left⟩ := frame
    simp only [trail, List.mem_append, List.mem_singleton, not_or] at h
    obtain ⟨⟨ht, hl⟩, hb⟩ := h
    show (close frames (left ++ node b here nil)).graft a f = _
    rw [ih ht, graft_append, graft_of_not_mem hl]
    simp only [graft, if_neg (Ne.symm hb)]
    rfl

/-- What is added below the innermost open node goes to the end of its row. -/
theorem graft_innermost {a : α} {left here : Forest α} {frames : List (α × Forest α)}
    (h : (close ((a, left) :: frames) here).preorder.Nodup) (f : Forest α) :
    (close ((a, left) :: frames) here).graft a f = close ((a, left) :: frames) (here ++ f) := by
  rw [preorder_close, trail, List.append_assoc, List.singleton_append] at h
  obtain ⟨-, hn, hd⟩ := List.nodup_append.1 h
  have hfront : a ∉ trail frames ++ left.preorder := fun hm => hd a hm a List.mem_cons_self rfl
  obtain ⟨ht, hl⟩ := not_or.1 (mt List.mem_append.2 hfront)
  have hhere : a ∉ here.preorder := (List.nodup_cons.1 hn).1
  show (close frames (left ++ node a here nil)).graft a f = _
  rw [graft_close ht, graft_append, graft_of_not_mem hl]
  simp only [graft, if_pos, graft_of_not_mem hhere]
  rfl

end Forest

namespace Growth

/-! ## The state of a growth -/

/-- The tree so far, as numbers: the nodes stand in the order of their numbers, and the open ones
are those of the frames. -/
structure Grown (g : Growth) (frames : List (Nat × Forest Nat)) (here : Forest Nat) : Prop where
  root : g.tree.kind Tree.root = .root
  content : g.tree.content Tree.root = Forest.close frames here
  order : (Forest.close frames here).preorder = List.range' 1 (g.tree.size - 1)
  pos : 0 < g.tree.size
  opened : g.opened.map Prod.fst = frames.map Prod.fst

theorem grown_start : start.Grown [] .nil where
  root := rfl
  content := by
    rw [Tree.content_eq]
    rfl
  order := rfl
  pos := Nat.one_pos
  opened := rfl

section
variable {g : Growth} {frames : List (Nat × Forest Nat)} {here : Forest Nat}

theorem Grown.lt_size (h : g.Grown frames here) {id : Nat}
    (hid : id ∈ (Forest.close frames here).preorder) : 0 < id ∧ id < g.tree.size := by
  rw [h.order, List.mem_range'_1] at hid
  have := h.pos
  omega

theorem Grown.innermost_nil (h : g.Grown [] here) : g.innermost = Tree.root := by
  have hg : g.opened = [] := List.map_eq_nil_iff.1 h.opened
  rw [innermost, hg]
  rfl

theorem Grown.innermost_cons {frame : Nat × Forest Nat} (h : g.Grown (frame :: frames) here) :
    g.innermost = frame.1 := by
  have ho := h.opened
  cases hg : g.opened with
  | nil => rw [hg] at ho; cases ho
  | cons o opened =>
    rw [hg] at ho
    simp only [List.map_cons, List.cons.injEq] at ho
    simp [innermost, hg, ho.1]

theorem Grown.frame_lt_size {frame : Nat × Forest Nat} (h : g.Grown (frame :: frames) here) :
    0 < frame.1 ∧ frame.1 < g.tree.size := by
  apply h.lt_size
  simp [Forest.preorder_close, Forest.trail]

theorem Grown.innermost_lt (h : g.Grown frames here) : g.innermost < g.tree.size := by
  cases frames with
  | nil =>
    rw [h.innermost_nil]
    exact h.pos
  | cons frame frames =>
    rw [h.innermost_cons]
    exact h.frame_lt_size.2

theorem Grown.content_put (h : g.Grown frames here) (k : Kind) :
    (g.put k).tree.content Tree.root = Forest.close frames (here ++ .leaf g.tree.size) := by
  show (g.tree.appendChild _ k).content Tree.root = _
  rw [Tree.content_appendChild h.innermost_lt, h.content]
  cases frames with
  | nil =>
    -- the root is no node below itself, so nothing is put further down
    have hroot : Tree.root ∉ (Forest.close [] here).preorder := fun hm =>
      Nat.lt_irrefl 0 (h.lt_size hm).1
    rw [h.innermost_nil, if_pos rfl, Forest.graft_of_not_mem hroot]
    rfl
  | cons frame frames =>
    obtain ⟨id, left⟩ := frame
    have hne : Tree.root ≠ id := Nat.ne_of_lt h.frame_lt_size.1
    rw [h.innermost_cons, if_neg hne, Forest.graft_innermost]
    rw [h.order]
    exact List.nodup_range'

/-- A node is put at the end of the innermost row. -/
theorem Grown.put (h : g.Grown frames here) (k : Kind) :
    (g.put k).Grown frames (here ++ .leaf g.tree.size) := by
  have hlt := h.innermost_lt
  have hsize : (g.put k).tree.size = g.tree.size + 1 := Tree.size_appendChild _ hlt k
  have hpos := h.pos
  constructor
  · show (g.tree.appendChild _ k).kind Tree.root = .root
    have hne : Tree.root ≠ g.tree.size := Nat.ne_of_lt hpos
    rw [Tree.kind_appendChild hlt, if_neg hne]
    exact h.root
  · exact h.content_put k
  · -- the new node is the last in document order and has the next number
    have horder := h.order
    rw [Forest.preorder_close] at horder ⊢
    rw [Forest.preorder_append, ← List.append_assoc, horder, hsize, Forest.preorder_leaf]
    have hn : g.tree.size + 1 - 1 = g.tree.size - 1 + 1 := by omega
    have hlast : 1 + (g.tree.size - 1) = g.tree.size := by omega
    rw [hn, List.range'_1_concat, hlast]
  · rw [hsize]
    exact Nat.succ_pos _
  · exact h.opened

end

/-! ## Frames of elements

With the kinds of the nodes in place of their numbers, the frames say what is written, and nothing
else about the arena. -/

/-- The tree so far, as kinds. Each frame is an open element and the row in front of it. -/
structure Shows (g : Growth) (frames : List (Element × Forest Kind)) (here : Forest Kind) :
    Prop where
  grown : ∃ fs f, g.Grown fs f ∧ f.map g.tree.kind = here ∧
    fs.map (fun fr => (g.tree.kind fr.1, fr.2.map g.tree.kind)) =
      frames.map fun fr => (.element fr.1, fr.2)
  names : g.opened.map Prod.snd = frames.map fun fr => fr.1.name.toList
  /-- An open element waits for its end tag. -/
  waits : ∀ fr ∈ frames, fr.1.isVoid = false ∧ fr.1.selfClosing = false

theorem shows_start : start.Shows [] .nil where
  grown := ⟨[], .nil, grown_start, rfl, rfl⟩
  names := rfl
  waits := by simp

section
variable {g : Growth} {frames : List (Element × Forest Kind)} {here : Forest Kind}

/-- The frames of a growth in which a node was put. -/
theorem Shows.grown_put (h : g.Shows frames here) (k : Kind) :
    ∃ fs f, (g.put k).Grown fs (f ++ .leaf g.tree.size) ∧
      (f ++ .leaf g.tree.size).map (g.put k).tree.kind = here ++ .leaf k ∧
      (g.put k).tree.kind g.tree.size = k ∧ f.map (g.put k).tree.kind = here ∧
      fs.map (fun fr => ((g.put k).tree.kind fr.1, fr.2.map (g.put k).tree.kind)) =
        frames.map fun fr => (.element fr.1, fr.2) := by
  obtain ⟨fs, f, hg, rfl, hfs⟩ := h.grown
  have hlt := hg.innermost_lt
  have hkind : ∀ id, (g.put k).tree.kind id = if id = g.tree.size then k else g.tree.kind id :=
    Tree.kind_appendChild hlt k
  have hnew : (g.put k).tree.kind g.tree.size = k := by rw [hkind, if_pos rfl]
  have hold : ∀ id ∈ Forest.trail fs ++ f.preorder,
      (g.put k).tree.kind id = g.tree.kind id := by
    intro id hid
    rw [← Forest.preorder_close] at hid
    rw [hkind, if_neg (Nat.ne_of_lt (hg.lt_size hid).2)]
  have hf : f.map (g.put k).tree.kind = f.map g.tree.kind :=
    Forest.map_congr fun id hid => hold id (List.mem_append_right _ hid)
  refine ⟨fs, f, hg.put k, ?_, hnew, hf, ?_⟩
  · rw [Forest.map_append, hf, Forest.map_leaf, hnew]
  · rw [← hfs]
    refine Forest.map_frames_congr fun id hid => hold id (List.mem_append_left _ hid)

/-- A node is put at the end of the innermost row. -/
theorem Shows.put (h : g.Shows frames here) (k : Kind) :
    (g.put k).Shows frames (here ++ .leaf k) := by
  obtain ⟨fs, f, hg, hhere, -, -, hfs⟩ := h.grown_put k
  exact ⟨⟨fs, _, hg, hhere, hfs⟩, h.names, h.waits⟩

/-- A start tag opens a frame with an empty row. -/
theorem Shows.open (h : g.Shows frames here) {e : Element} (hv : e.isVoid = false)
    (hs : e.selfClosing = false) :
    Shows { g.put (.element e) with opened := (g.tree.size, e.name.toList) :: g.opened }
      ((e, here) :: frames) .nil := by
  obtain ⟨fs, f, hg, -, hnew, hf, hfs⟩ := h.grown_put (.element e)
  refine ⟨⟨(g.tree.size, f) :: fs, .nil, ?_, rfl, ?_⟩, ?_, ?_⟩
  · exact ⟨hg.root, hg.content, hg.order, hg.pos, congrArg (g.tree.size :: ·) hg.opened⟩
  · show (_, _) :: _ = (_, _) :: _
    rw [hfs]
    show ((g.put (.element e)).tree.kind g.tree.size, f.map (g.put (.element e)).tree.kind) :: _ = _
    rw [hnew, hf]
  · exact congrArg (e.name.toList :: ·) h.names
  · intro fr hfr
    rcases List.mem_cons.1 hfr with rfl | hfr
    · exact ⟨hv, hs⟩
    · exact h.waits fr hfr

/-- Without frames, the innermost row is what lies below the root. -/
theorem Shows.forest (h : g.Shows [] here) :
    g.tree.kind Tree.root = .root ∧ g.tree.forest Tree.root = here := by
  obtain ⟨fs, f, hg, rfl, hfs⟩ := h.grown
  obtain rfl : fs = [] := List.map_eq_nil_iff.1 hfs
  exact ⟨hg.root, by rw [Tree.forest, hg.content]; rfl⟩

/-- An end tag closes the innermost frame. Its element goes to the end of the row in front. -/
theorem Shows.close {e : Element} {left : Forest Kind} (h : g.Shows ((e, left) :: frames) here) :
    ∃ id opened, g.opened = (id, e.name.toList) :: opened ∧
      Shows { g with opened } frames (left ++ .node (.element e) here .nil) := by
  obtain ⟨fs, f, hg, rfl, hfs⟩ := h.grown
  have hnames := h.names
  cases hgo : g.opened with
  | nil => rw [hgo] at hnames; cases hnames
  | cons o opened =>
    obtain ⟨id, name⟩ := o
    rw [hgo] at hnames
    simp only [List.map_cons, List.cons.injEq] at hnames
    obtain ⟨rfl, hnames⟩ := hnames
    refine ⟨id, opened, rfl, ?_⟩
    cases fs with
    | nil => cases hfs
    | cons fr fs =>
      obtain ⟨id', left'⟩ := fr
      simp only [List.map_cons, List.cons.injEq, Prod.mk.injEq] at hfs
      obtain ⟨⟨hkind, rfl⟩, hfs⟩ := hfs
      have ho := hg.opened
      rw [hgo] at ho
      simp only [List.map_cons, List.cons.injEq] at ho
      refine ⟨⟨fs, left' ++ .node id' f .nil, ?_, ?_, hfs⟩, hnames, ?_⟩
      · exact ⟨hg.root, hg.content, hg.order, hg.pos, ho.2⟩
      · show (left' ++ .node id' f .nil).map g.tree.kind = _
        rw [Forest.map_append, Forest.map_node, hkind]
        rfl
      · exact fun fr hfr => h.waits fr (List.mem_cons_of_mem _ hfr)

end

end Growth

end PageMend.Markup
