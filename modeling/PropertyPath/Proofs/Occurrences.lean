import PropertyPath.Proofs.Cuts

/-!
# Where texts are cut

Path text is cut at delimiters, and tokens are cut at markers: wherever the pattern occurs, unless a
backslash stands directly before. The pieces and the matches between them make up the text, and
there is no other way to write it so.

## Mechanism

Whether a text is cut at a position depends on the characters there and on the one before. So the
positions of `c :: rest` are its start, perhaps, and those of `rest`, moved by one; the flag carries
`c` along.

The positions can be found by a search that goes on behind each match, because no match overlaps
another one. A loop over what is found carries the position where the open piece starts. It passes
over the matches that a backslash stands before, so it does what slicing at the other ones does, and
slicing goes through the text as cutting does.

* `search_eq_filter` — the search misses no match
* `toList_pieces_eq_loop` — the pieces are what the loop leaves
* `divides_cut` — the pieces and the cuts divide the text
* `Divides.eq` — whatever divides it is these
* `only_division` — what cutting does, for every text and both patterns
-/

namespace PropertyPath

namespace Path

namespace Pattern

/-! ## Positions and searches -/

/-- The positions of the cuts, in order. -/
def positions (p : Pattern) (escaped : Bool) (text : List Char) : List Nat :=
  (List.range text.length).filter (p.cutsAt escaped text)

/-- The matches at which a text is cut, in order. -/
def cuts (p : Pattern) (escaped : Bool) (text : List Char) : List (List Char) :=
  (p.positions escaped text).map fun i => (text.drop i).take p.width

/-- The positions of the matches that a search from left to right finds, where it goes on behind
each match. -/
def search (p : Pattern) : List Char → List Nat
  | [] => []
  | c :: rest =>
    if p.occursAt (c :: rest) 0 then
      0 :: (p.search ((c :: rest).drop p.width)).map (· + p.width)
    else (p.search rest).map (· + 1)
termination_by text => text.length
decreasing_by
  · have hwidth := p.width_pos
    rw [List.length_drop, List.length_cons]
    omega
  · exact Nat.lt_succ_self _

/-- The pieces that are left of a text when it is sliced at matches, from a start position on. -/
def slices (p : Pattern) (text : List Char) : (start : Nat) → List Nat → List (List Char)
  | start, [] => [text.drop start]
  | start, i :: rest => (text.take i).drop start :: p.slices text (i + p.width) rest

/-- The pieces that a loop over matches leaves. A match that a backslash stands before is passed
over; any other one ends the piece from the start position on, and the next piece starts behind
it. -/
def loop (p : Pattern) (text : List Char) : (start : Nat) → List Nat → List (List Char)
  | start, [] => [text.drop start]
  | start, i :: rest =>
    if (text.take i).getLast? = some '\\' then p.loop text start rest
    else (text.take i).drop start :: p.loop text (i + p.width) rest

/-- The pieces of a text: its tokens or its parts. -/
def pieces : Pattern → List Char → Pieces
  | delimiter => tokens
  | marker => parts

variable {p : Pattern}

theorem pieces_eq_cut (p : Pattern) (text : List Char) : p.pieces text = p.cut false text := by
  cases p <;> rfl

/-! ## Positions step by step -/

theorem occursAt_succ (c : Char) (rest : List Char) (i : Nat) :
    p.occursAt (c :: rest) (i + 1) = p.occursAt rest i := rfl

theorem filter_range_succ (f : Nat → Bool) (n : Nat) :
    (List.range (n + 1)).filter f = (if f 0 then [0] else [])
      ++ ((List.range n).filter fun i => f (i + 1)).map (· + 1) := by
  rw [List.range_succ_eq_map, List.filter_cons, List.filter_map]
  split <;> rfl

theorem positions_cons (escaped : Bool) (c : Char) (rest : List Char) :
    p.positions escaped (c :: rest) = (if p.cutsAt escaped (c :: rest) 0 then [0] else [])
      ++ (p.positions (c = '\\') rest).map (· + 1) :=
  filter_range_succ _ _

theorem positions_keep {escaped : Bool} {c : Char} {rest : List Char}
    (h : p.cutsAt escaped (c :: rest) 0 = false) :
    p.positions escaped (c :: rest) = (p.positions (c = '\\') rest).map (· + 1) := by
  rw [positions_cons, h]
  rfl

theorem positions_match {w : List Char} (h : p.isMatch w = true) (rest : List Char) :
    p.positions false (w ++ rest) = 0 :: (p.positions false rest).map (· + w.length) := by
  obtain ⟨rfl, c, hc, rfl⟩ | ⟨rfl, rfl⟩ := isMatch_cases h
  · have hback : c ≠ '\\' := ne_of_isDelimiter hc isDelimiter_backslash
    rw [List.singleton_append, positions_cons, cutsAt_delimiter, hc, decide_eq_false hback]
    rfl
  · have hclose : marker.cutsAt ('[' = '\\') (']' :: rest) 0 = false := by
      rw [cutsAt_marker]
      rfl
    show marker.positions false ('[' :: ']' :: rest) = _
    rw [positions_cons, positions_keep hclose, cutsAt_marker, List.map_map]
    rfl

theorem cuts_nil (escaped : Bool) : p.cuts escaped [] = [] := rfl

theorem cuts_keep {escaped : Bool} {c : Char} {rest : List Char}
    (h : p.cutsAt escaped (c :: rest) 0 = false) :
    p.cuts escaped (c :: rest) = p.cuts (c = '\\') rest := by
  rw [cuts, positions_keep h, List.map_map]
  rfl

theorem cuts_match {w : List Char} (h : p.isMatch w = true) (rest : List Char) :
    p.cuts false (w ++ rest) = w :: p.cuts false rest := by
  have hfront : ((w ++ rest).drop 0).take p.width = w := by
    rw [List.drop_zero, ← length_of_isMatch h, List.take_left]
  have hback : ∀ i, (w ++ rest).drop (i + w.length) = rest.drop i := fun i => by
    rw [Nat.add_comm, List.drop_length_add_append]
  rw [cuts, positions_match h, List.map_cons, hfront, List.map_map]
  simp only [Function.comp_def, hback]
  rfl

/-- A match that no backslash stands before is one of the cuts, and each side has its own. -/
theorem cuts_append_match {w : List Char} (hw : p.isMatch w = true) (x y : List Char) :
    ∀ escaped, escapesNext escaped x = false →
      p.cuts escaped (x ++ (w ++ y)) = p.cuts escaped x ++ w :: p.cuts false y := by
  intro escaped
  induction escaped, x using p.induction with
  | nil escaped =>
    intro hx
    obtain rfl : escaped = false := hx
    rw [List.nil_append, cuts_match hw, cuts_nil, List.nil_append]
  | cut w' rest hw' ih =>
    intro hx
    rw [escapesNext_append, escapesNext_match hw'] at hx
    rw [List.append_assoc, cuts_match hw', cuts_match hw', ih hx, List.cons_append]
  | keep escaped c rest h ih =>
    intro hx
    have hkeep := (cutsAt_append_match hw escaped c rest y).trans h
    rw [List.cons_append, cuts_keep hkeep, cuts_keep h, ih hx]

/-! ## Search -/

/-- **No match overlaps another one,** so the search finds every occurrence. -/
theorem search_eq_filter (text : List Char) :
    p.search text = (List.range text.length).filter (p.occursAt text) := by
  induction text using search.induct p with
  | case1 => rw [search]; rfl
  | case2 c rest h ih =>
    rw [search, if_pos h, ih, List.length_cons, filter_range_succ, if_pos h]
    cases p with
    | delimiter => rfl
    | marker =>
      rw [occursAt_marker, Bool.and_eq_true, decide_eq_true_iff, decide_eq_true_iff] at h
      obtain ⟨more, rfl⟩ := List.head?_eq_some_iff.mp h.2
      -- the search passes over the closing bracket, where there is nothing to find
      simp only [occursAt_succ]
      rw [List.length_cons, filter_range_succ, occursAt_marker]
      simp [width, occursAt_succ, Function.comp_def]
  | case3 c rest h ih =>
    rw [search, if_neg h, ih, List.length_cons, filter_range_succ, if_neg h]
    rfl

/-- **The cuts are the matches that the search finds and no backslash stands before.** -/
theorem positions_eq_search (text : List Char) :
    p.positions false text
      = (p.search text).filter fun i => (text.take i).getLast? ≠ some '\\' := by
  rw [search_eq_filter, List.filter_filter, positions]
  refine List.filter_congr fun i _ => ?_
  rw [cutsAt, Bool.eq_iff_iff, Bool.and_eq_true, Bool.and_eq_true, Bool.not_eq_true',
    escapesNext_false_eq_false_iff, decide_eq_true_iff, and_comm]

/-! ## Slices -/

/-- The loop slices at the matches that no backslash stands before. -/
theorem loop_eq_slices (text : List Char) (found : List Nat) : ∀ start,
    p.loop text start found
      = p.slices text start (found.filter fun i => (text.take i).getLast? ≠ some '\\') := by
  induction found with
  | nil => intro start; rfl
  | cons i rest ih =>
    intro start
    by_cases h : (text.take i).getLast? = some '\\'
    · rw [loop, if_pos h, ih, List.filter_cons_of_neg (by simpa using h)]
    · rw [loop, if_neg h, ih, List.filter_cons_of_pos (by simpa using h), slices]

/-- Slicing does not look at what stands before the start position. -/
theorem slices_append (w rest : List Char) (positions : List Nat) : ∀ start,
    p.slices (w ++ rest) (start + w.length) (positions.map (· + w.length))
      = p.slices rest start positions := by
  induction positions with
  | nil =>
    intro start
    rw [List.map_nil, slices, slices, Nat.add_comm, List.drop_length_add_append]
  | cons i positions ih =>
    intro start
    rw [List.map_cons, slices, slices, Nat.add_right_comm, ih, Nat.add_comm i,
      List.take_length_add_append, Nat.add_comm start, List.drop_length_add_append]

/-- A character in front lengthens the first slice. -/
theorem slices_cons (c : Char) (rest : List Char) (positions : List Nat) :
    p.slices (c :: rest) 0 (positions.map (· + 1))
      = (p.slices rest 0 positions).modifyHead (c :: ·) := by
  cases positions with
  | nil => rfl
  | cons i positions =>
    have htail := slices_append (p := p) [c] rest positions (i + p.width)
    rw [List.map_cons, slices, slices, Nat.add_right_comm, List.modifyHead_cons]
    exact congrArg _ htail

/-- **The pieces are the slices between the cuts.** -/
theorem slices_positions (escaped : Bool) (text : List Char) :
    p.slices text 0 (p.positions escaped text) = (p.cut escaped text).toList := by
  induction escaped, text using p.induction with
  | nil escaped => rw [cut_nil]; rfl
  | cut w rest h ih =>
    rw [cut_match h, Pieces.toList_cut, positions_match h, slices, ← length_of_isMatch h,
      slices_append, ih]
    rfl
  | keep escaped c rest h ih =>
    rw [cut_keep h, positions_keep h, slices_cons, ih, Pieces.toList_keep,
      Pieces.toList_eq_first_cons, List.modifyHead_cons, List.tail_cons]

/-- **The pieces are what a loop over the matches of the search leaves.** -/
theorem toList_pieces_eq_loop (p : Pattern) (text : List Char) :
    (p.pieces text).toList = p.loop text 0 (p.search text) := by
  rw [loop_eq_slices, ← positions_eq_search, slices_positions, pieces_eq_cut]

end Pattern

/-! ## Division -/

namespace Pieces

/-- The pieces of a text with other texts between them. -/
def interleave (P : Pieces) (between : List (List Char)) : List Char :=
  (List.zipWith (· ++ ·) P.closed between).flatten ++ P.last

theorem length_closed_keep (c : Char) (P : Pieces) :
    (P.keep c).closed.length = P.closed.length := by
  rcases P with ⟨_ | ⟨piece, closed⟩, last⟩ <;> rfl

theorem interleave_keep (c : Char) {P : Pieces} {between : List (List Char)}
    (h : P.closed.length = between.length) :
    (P.keep c).interleave between = c :: P.interleave between := by
  rcases P with ⟨_ | ⟨piece, closed⟩, last⟩
  · rfl
  · cases between with
    | nil => cases h
    | cons w between => rfl

theorem interleave_cut_cons (P : Pieces) (w : List Char) (between : List (List Char)) :
    P.cut.interleave (w :: between) = w ++ P.interleave between := by
  simp [interleave, cut]

end Pieces

namespace Pattern

variable {p : Pattern}

/-- The text is written as pieces with matches between them, where the pieces hold no cut of their
own and take none of the matches away. -/
structure Divides (p : Pattern) (text : List Char) (P : Pieces) (between : List (List Char)) :
    Prop where
  matched : ∀ w ∈ between, p.isMatch w = true
  length : P.closed.length = between.length
  interleave : P.interleave between = text
  guarded : ∀ piece ∈ P.closed, piece.getLast? ≠ some '\\'
  uncut : ∀ piece ∈ P.toList, ∀ i, p.cutsAt false piece i = false

theorem isMatch_of_mem_cuts {escaped : Bool} {text w : List Char} (h : w ∈ p.cuts escaped text) :
    p.isMatch w = true := by
  obtain ⟨i, hi, rfl⟩ := List.mem_map.mp h
  exact (Bool.and_eq_true_iff.mp (List.mem_filter.mp hi).2).1

theorem length_closed_cut (escaped : Bool) (text : List Char) :
    (p.cut escaped text).closed.length = (p.cuts escaped text).length := by
  induction escaped, text using p.induction with
  | nil escaped => rw [cut_nil, cuts_nil]
  | cut w rest h ih => rw [cut_match h, cuts_match h, List.length_cons, ← ih]; rfl
  | keep escaped c rest h ih => rw [cut_keep h, cuts_keep h, Pieces.length_closed_keep, ih]

/-- **Nothing of a text is lost.** -/
theorem interleave_cut (escaped : Bool) (text : List Char) :
    (p.cut escaped text).interleave (p.cuts escaped text) = text := by
  induction escaped, text using p.induction with
  | nil escaped => rw [cut_nil, cuts_nil]; rfl
  | cut w rest h ih => rw [cut_match h, cuts_match h, Pieces.interleave_cut_cons, ih]
  | keep escaped c rest h ih =>
    rw [cut_keep h, cuts_keep h, Pieces.interleave_keep c (length_closed_cut _ rest), ih]

/-- **No piece holds a cut.** The flag counts for the first one. -/
theorem uncut_cut (escaped : Bool) (text : List Char) :
    (∀ i, p.cutsAt escaped (p.cut escaped text).first i = false) ∧
    ∀ piece ∈ (p.cut escaped text).toList.tail, ∀ i, p.cutsAt false piece i = false := by
  induction escaped, text using p.induction with
  | nil escaped =>
    rw [cut_nil]
    exact ⟨cutsAt_nil escaped, by simp [Pieces.toList]⟩
  | cut w rest h ih =>
    rw [cut_match h, Pieces.first_cut, Pieces.toList_cut, List.tail_cons,
      Pieces.toList_eq_first_cons]
    exact ⟨cutsAt_nil false, List.forall_mem_cons.mpr ih⟩
  | keep escaped c rest h ih =>
    rw [cut_keep h, Pieces.first_keep, Pieces.tail_toList_keep]
    refine ⟨fun i => ?_, ih.2⟩
    cases i with
    | zero =>
      -- what occurs at the start of the first piece occurs at the start of the text
      exact cutsAt_of_front ((List.prefix_cons_inj c).mpr (prefix_first_cut _ rest)) h
    | succ i => exact ih.1 i

theorem divides_cut (text : List Char) : p.Divides text (p.cut false text) (p.cuts false text) where
  matched _ h := isMatch_of_mem_cuts h
  length := length_closed_cut false text
  interleave := interleave_cut false text
  guarded _ h := (escapesNext_false_eq_false_iff _).mp ((guarded_cut false text).of_mem h)
  uncut := by
    rw [Pieces.toList_eq_first_cons]
    exact List.forall_mem_cons.mpr (uncut_cut false text)

/-! ## No other division -/

/-- A text without a cut is one piece. -/
theorem cut_of_uncut (escaped : Bool) (text : List Char)
    (h : ∀ i, p.cutsAt escaped text i = false) :
    p.cut escaped text = ⟨[], text⟩ ∧ p.cuts escaped text = [] := by
  induction text generalizing escaped with
  | nil => exact ⟨cut_nil escaped, cuts_nil escaped⟩
  | cons c rest ih =>
    obtain ⟨hcut, hcuts⟩ := ih (c = '\\') fun i => h (i + 1)
    rw [cut_keep (h 0), cuts_keep (h 0), hcut, hcuts]
    exact ⟨rfl, rfl⟩

/-- The match behind a text without a cut is the first one at which the two are cut. -/
theorem cut_uncut_append {w : List Char} (hw : p.isMatch w = true) (rest piece : List Char)
    (h : ∀ i, p.cutsAt false piece i = false) (hguard : escapesNext false piece = false) :
    p.cut false (piece ++ (w ++ rest))
        = ⟨piece :: (p.cut false rest).closed, (p.cut false rest).last⟩ ∧
      p.cuts false (piece ++ (w ++ rest)) = w :: p.cuts false rest := by
  obtain ⟨hcut, hcuts⟩ := cut_of_uncut false piece h
  rw [cut_append_match hw piece rest false hguard, cuts_append_match hw piece rest false hguard,
    hcut, hcuts]
  exact ⟨rfl, rfl⟩

/-- **There is one way only to divide a text.** -/
theorem Divides.eq {text : List Char} {P : Pieces} {between : List (List Char)}
    (h : p.Divides text P between) : P = p.cut false text ∧ between = p.cuts false text := by
  rcases P with ⟨closed, last⟩
  induction closed generalizing text between with
  | nil =>
    obtain rfl := List.eq_nil_of_length_eq_zero h.length.symm
    obtain rfl : last = text := h.interleave
    obtain ⟨hcut, hcuts⟩ := cut_of_uncut false last (h.uncut last List.mem_cons_self)
    exact ⟨hcut.symm, hcuts.symm⟩
  | cons piece closed ih =>
    obtain ⟨w, between, rfl⟩ := List.exists_cons_of_length_eq_add_one h.length.symm
    obtain ⟨hw, hmatched⟩ := List.forall_mem_cons.mp h.matched
    obtain ⟨hpiece, hguarded⟩ := List.forall_mem_cons.mp h.guarded
    obtain ⟨hfirst, huncut⟩ := List.forall_mem_cons.mp h.uncut
    -- without its first piece and the match behind it, this is a division of what follows
    have hrest : p.Divides (Pieces.interleave ⟨closed, last⟩ between) ⟨closed, last⟩ between :=
      ⟨hmatched, Nat.succ.inj h.length, rfl, hguarded, huncut⟩
    obtain ⟨hP, hbetween⟩ := ih hrest
    obtain ⟨hcut, hcuts⟩ := cut_uncut_append hw (Pieces.interleave ⟨closed, last⟩ between) piece
      hfirst ((escapesNext_false_eq_false_iff piece).mpr hpiece)
    have htext : piece ++ (w ++ Pieces.interleave ⟨closed, last⟩ between) = text := by
      rw [← h.interleave]
      simp [Pieces.interleave]
    rw [← hP] at hcut
    rw [← hbetween] at hcuts
    rw [← htext, hcut, hcuts]
    exact ⟨rfl, rfl⟩

/-- **The pieces of a text are its only division.** With the matches at which it is cut between them
they make up the text, no piece but the last ends in a backslash, none holds a match that no
backslash stands before, and nothing else is such a division. There is one piece more than there are
such matches in the text; and they are what a search from left to right finds, less the matches that
a backslash stands before. -/
theorem only_division (p : Pattern) (text : List Char) :
    (∀ P between, p.Divides text P between ↔ P = p.pieces text ∧ between = p.cuts false text) ∧
    (p.pieces text).toList.length = (p.positions false text).length + 1 ∧
    p.positions false text
      = (p.search text).filter fun i => (text.take i).getLast? ≠ some '\\' := by
  refine ⟨fun P between => ⟨fun h => ?_, ?_⟩, ?_, positions_eq_search text⟩
  · rw [pieces_eq_cut]
    exact h.eq
  · rintro ⟨rfl, rfl⟩
    rw [pieces_eq_cut]
    exact divides_cut text
  · rw [pieces_eq_cut, Pieces.toList, List.length_append, length_closed_cut, cuts, List.length_map]
    rfl

example : (marker.pieces "[[]]\\[][]".toList).toList = ["[", "]\\[]", ""].map String.toList := by
  decide

end Pattern

end Path

end PropertyPath
