import Formulary.Expr.OfSkeleton
import Formulary.Proofs.Outcome

/-! # Where reading fails

What is wrong with a skeleton is reported at a place of the formula: the position of one of its
cells, or the end.  Each reader fails only at places of its own stretch, and the stretches it hands
on are parts of its own.
-/

namespace Formulary

open Error (DefectAt)

/-! ## Places of a stretch -/

namespace Stretch

/-- The positions of the marks, and that of what follows. -/
def places (s : Stretch) : List Nat :=
  s.marks.map (·.position) ++ [s.stop]

theorem position_mem_places {s : Stretch} {m : Mark} (h : m ∈ s.marks) :
    m.position ∈ s.places :=
  List.mem_append_left _ (List.mem_map_of_mem h)

theorem stop_mem_places (s : Stretch) : s.stop ∈ s.places :=
  List.mem_append_right _ List.mem_cons_self

theorem start_mem_places (s : Stretch) : s.start ∈ s.places := by
  obtain ⟨marks, stop⟩ := s
  cases marks with
  | nil => exact stop_mem_places _
  | cons m marks => exact position_mem_places List.mem_cons_self

theorem places_drop (k : Nat) (s : Stretch) : (s.drop k).places ⊆ s.places := by
  intro p hp
  rcases List.mem_append.1 hp with hp | hp
  · obtain ⟨m, hm, rfl⟩ := List.mem_map.1 hp
    exact position_mem_places (List.mem_of_mem_drop hm)
  · exact List.mem_append_right _ hp

theorem places_take (k : Nat) (s : Stretch) : (s.take k).places ⊆ s.places := by
  intro p hp
  rcases List.mem_append.1 hp with hp | hp
  · obtain ⟨m, hm, rfl⟩ := List.mem_map.1 hp
    exact position_mem_places (List.mem_of_mem_take hm)
  · rw [List.mem_singleton.1 hp]
    exact places_drop k s (start_mem_places _)

/-- The pieces of a stretch have their places in it. -/
theorem places_cutFrom (i : Nat) (s : Stretch) (spans : List Span) :
    (s.cutFrom i spans).1.places ⊆ s.places ∧
      ∀ seg ∈ (s.cutFrom i spans).2, seg.position ∈ s.places ∧ seg.body.places ⊆ s.places := by
  induction spans generalizing i s with
  | nil => simp [cutFrom]
  | cons m ms ih =>
    have tail := places_drop (m.start - i) s
    have rest := List.Subset.trans (places_drop m.op.length (s.drop (m.start - i))) tail
    obtain ⟨hhead, hsegs⟩ := ih m.stop ((s.drop (m.start - i)).drop m.op.length)
    refine ⟨places_take _ s, List.forall_mem_cons.2 ⟨⟨tail (start_mem_places _), ?_⟩, ?_⟩⟩
    · exact List.Subset.trans hhead rest
    · intro seg hseg
      obtain ⟨hposition, hbody⟩ := hsegs seg hseg
      exact ⟨rest hposition, List.Subset.trans hbody rest⟩

end Stretch

/-! ## Readers -/

namespace Expr

/-- Does the reader fail only at places of its stretch? -/
def Local (reader : Stretch → Except Error Branch) : Prop :=
  ∀ s, FailsOnly (DefectAt s.places) (reader s)

variable {positions : List Nat} {inner operand : Stretch → Except Error Branch}

theorem Local.failsOnly (h : Local operand) {s : Stretch} (hs : s.places ⊆ positions) :
    FailsOnly (DefectAt positions) (operand s) :=
  (h s).mono fun _ => DefectAt.mono hs

theorem failsOnly_node {p : Nat} (h : p ∈ positions) (b : Branch) :
    FailsOnly (DefectAt positions) (node p b) := by
  unfold node
  split
  · exact failsOnly_ok _ b
  · exact failsOnly_error.2 (.malformed h _)

theorem failsOnly_foldLeft (hoperand : Local operand) {segs : List Stretch.Segment}
    (hsegs : ∀ seg ∈ segs, seg.position ∈ positions ∧ seg.body.places ⊆ positions)
    (first : Branch) : FailsOnly (DefectAt positions) (foldLeft operand first segs) := by
  induction segs generalizing first with
  | nil => exact failsOnly_ok _ first
  | cons seg segs ih =>
    obtain ⟨⟨hposition, hbody⟩, hsegs⟩ := List.forall_mem_cons.1 hsegs
    rw [foldLeft]
    split
    · exact failsOnly_error.2 (.malformed hposition _)
    · refine (hoperand.failsOnly hbody).bind fun right _ => ?_
      exact (failsOnly_node hposition _).bind fun e _ => ih hsegs e

theorem local_leftChain (hoperand : Local operand) (cuts : Stretch → List Span) :
    Local fun s => leftChain operand s (cuts s) := by
  intro s
  obtain ⟨hhead, hsegs⟩ := s.places_cutFrom 0 (cuts s)
  exact (hoperand.failsOnly hhead).bind fun first _ => failsOnly_foldLeft hoperand hsegs first

theorem failsOnly_readAll (hinner : Local inner) {ss : List Stretch}
    (hss : ∀ s ∈ ss, s.places ⊆ positions) :
    FailsOnly (DefectAt positions) (readAll inner ss) := by
  induction ss with
  | nil => exact failsOnly_ok _ []
  | cons s ss ih =>
    obtain ⟨hs, hss⟩ := List.forall_mem_cons.1 hss
    exact (hinner.failsOnly hs).bind fun e _ => (ih hss).bind fun es _ => failsOnly_ok _ _

theorem failsOnly_arguments (hinner : Local inner) (s : Stretch) :
    FailsOnly (DefectAt s.places) (arguments inner s) := by
  unfold arguments
  split
  · exact failsOnly_error.2 (.malformed s.stop_mem_places _)
  · obtain ⟨hhead, hsegs⟩ := s.places_cutFrom 0 (Stretch.commas s.chars)
    refine failsOnly_readAll hinner (List.forall_mem_cons.2 ⟨hhead, fun body hbody => ?_⟩)
    obtain ⟨seg, hseg, rfl⟩ := List.mem_map.1 hbody
    exact (hsegs seg hseg).2

/-- What brackets enclose has its places among those of the stretch behind the opening one. -/
theorem enclosed_spec {p : Nat} (hp : p ∈ positions) {s : Stretch} (hs : s.places ⊆ positions) :
    FailsOnly (DefectAt positions) (enclosed p s) ∧
      ∀ body, enclosed p s = .ok body → body.places ⊆ positions := by
  unfold enclosed
  cases Bracket.closing? '(' ')' 0 s.chars with
  | none => exact ⟨failsOnly_error.2 (.malformed hp _), fun _ h => nomatch h⟩
  | some k =>
    by_cases hrest : (s.drop (k + 1)).marks.isEmpty = true
    · simp only [hrest, if_true]
      refine ⟨failsOnly_ok _ _, fun body hbody => ?_⟩
      cases hbody
      exact List.Subset.trans (s.places_take k) hs
    · simp only [hrest]
      refine ⟨failsOnly_error.2 (.malformed ?_ _), fun _ h => nomatch h⟩
      exact hs (s.places_drop (k + 1) (Stretch.start_mem_places _))

theorem local_primary (hinner : Local inner) : Local (primary inner) := by
  rintro ⟨marks, stop⟩
  cases marks with
  | nil => exact failsOnly_error.2 (.malformed (Stretch.stop_mem_places _) _)
  | cons m rest =>
    have here : m.position ∈ (⟨m :: rest, stop⟩ : Stretch).places :=
      Stretch.position_mem_places List.mem_cons_self
    have behind (k : Nat) := Stretch.places_drop k ⟨m :: rest, stop⟩
    unfold primary
    dsimp only
    split
    · obtain ⟨hfail, hbody⟩ := enclosed_spec here (behind 1)
      refine hfail.bind fun body h => ?_
      exact (hinner.failsOnly (hbody body h)).bind fun e _ => failsOnly_node here _
    · split
      · cases rest with
        | nil => exact failsOnly_ok _ _
        | cons next rest =>
          have there : next.position ∈ (⟨m :: next :: rest, stop⟩ : Stretch).places :=
            Stretch.position_mem_places (List.mem_cons_of_mem _ List.mem_cons_self)
          dsimp only
          split
          · obtain ⟨hfail, hbody⟩ := enclosed_spec there (behind 2)
            refine hfail.bind fun body h => ?_
            have hargs := (failsOnly_arguments hinner body).mono fun _ =>
              DefectAt.mono (hbody body h)
            exact hargs.bind fun args _ => failsOnly_node here _
          · exact failsOnly_error.2 (.malformed there _)
      · exact failsOnly_error.2 (.malformed here _)

namespace Signed

/-- Do the signs stand at the given positions? -/
def Within (positions : List Nat) (x : Signed) : Prop :=
  ∀ p ∈ x.signs, p.1 ∈ positions

theorem position_of_mem_leadingSigns {s : Stretch} {p : Nat × Sign} (h : p ∈ leadingSigns s) :
    p.1 ∈ s.places := by
  obtain ⟨m, hm, hsign⟩ := List.mem_filterMap.1 h
  obtain ⟨sign, -, rfl⟩ := Option.map_eq_some_iff.1 hsign
  exact Stretch.position_mem_places ((List.takeWhile_sublist _).subset hm)

theorem read_spec (hinner : Local inner) {s : Stretch} (hs : s.places ⊆ positions) :
    FailsOnly (DefectAt positions) (read inner s) ∧
      ∀ x, read inner s = .ok x → x.Within positions := by
  constructor
  · have hbase := (local_primary hinner).failsOnly
      (List.Subset.trans (s.places_drop (leadingSigns s).length) hs)
    exact hbase.bind fun base _ => failsOnly_ok _ _
  · intro x hx p hp
    obtain ⟨base, -, h⟩ := bind_eq_ok_iff.1 hx
    cases h
    exact hs (position_of_mem_leadingSigns hp)

theorem readSegments_spec (hinner : Local inner) {segs : List Stretch.Segment}
    (hsegs : ∀ seg ∈ segs, seg.position ∈ positions ∧ seg.body.places ⊆ positions) :
    FailsOnly (DefectAt positions) (readSegments inner segs) ∧
      ∀ xs, readSegments inner segs = .ok xs →
        ∀ x ∈ xs, x.1 ∈ positions ∧ x.2.Within positions := by
  induction segs with
  | nil =>
    refine ⟨failsOnly_ok _ [], fun xs hxs => ?_⟩
    cases hxs
    simp
  | cons seg segs ih =>
    obtain ⟨⟨hposition, hbody⟩, hsegs⟩ := List.forall_mem_cons.1 hsegs
    obtain ⟨hfail, hread⟩ := read_spec hinner hbody
    obtain ⟨hfails, hreads⟩ := ih hsegs
    constructor
    · exact hfail.bind fun x _ => hfails.bind fun xs _ => failsOnly_ok _ _
    · intro xs hxs
      obtain ⟨x, hx, h⟩ := bind_eq_ok_iff.1 hxs
      obtain ⟨rest, hrest, h⟩ := bind_eq_ok_iff.1 h
      cases h
      exact List.forall_mem_cons.2 ⟨⟨hposition, hread x hx⟩, hreads rest hrest⟩

theorem failsOnly_apply {signs : List (Nat × Sign)} (h : ∀ p ∈ signs, p.1 ∈ positions)
    (b : Branch) : FailsOnly (DefectAt positions) (apply signs b) := by
  induction signs with
  | nil => exact failsOnly_ok _ b
  | cons p signs ih =>
    obtain ⟨hp, hsigns⟩ := List.forall_mem_cons.1 h
    exact (ih hsigns).bind fun x _ => failsOnly_node hp _

theorem failsOnly_combine {rest : List (Nat × Signed)}
    (hrest : ∀ x ∈ rest, x.1 ∈ positions ∧ x.2.Within positions) {first : Signed}
    (hfirst : first.Within positions) :
    FailsOnly (DefectAt positions) (combine first rest) := by
  induction rest generalizing first with
  | nil => exact failsOnly_apply hfirst _
  | cons x rest ih =>
    obtain ⟨⟨hposition, hx⟩, hrest⟩ := List.forall_mem_cons.1 hrest
    refine (ih hrest hx).bind fun exponent _ => ?_
    exact (failsOnly_node hposition _).bind fun e _ => failsOnly_apply hfirst e

end Signed

theorem local_power (hinner : Local inner) : Local (power inner) := by
  intro s
  obtain ⟨hhead, hsegs⟩ := s.places_cutFrom 0 (Stretch.powerCuts s.chars)
  obtain ⟨hfail, hfirst⟩ := Signed.read_spec hinner hhead
  obtain ⟨hfails, hrest⟩ := Signed.readSegments_spec hinner hsegs
  refine hfail.bind fun first h => hfails.bind fun rest hs => ?_
  exact Signed.failsOnly_combine (hrest rest hs) (hfirst first h)

theorem local_product (hinner : Local inner) : Local (product inner) :=
  local_leftChain (local_power hinner) fun s => Stretch.productCuts s.chars

theorem local_sum (hinner : Local inner) : Local (sum inner) := by
  intro s
  unfold sum
  split
  · exact failsOnly_error.2 (.malformed (s.places_drop _ (Stretch.start_mem_places _)) _)
  · exact local_leftChain (local_product hinner) (fun s => Stretch.sumCuts s.chars) s

theorem local_read (depth : Nat) : Local (read depth) := by
  induction depth with
  | zero => exact fun s => failsOnly_error.2 (.malformed s.start_mem_places _)
  | succ depth ih => exact local_sum ih

end Expr

/-! ## Skeletons -/

namespace Skeleton

/-- The positions of the cells, and the end of the formula. -/
def places (s : Skeleton) : List Nat :=
  s.cells.map (·.position) ++ [s.length]

theorem failsOnly_checkNesting {positions opened : List Nat} (hopened : opened ⊆ positions)
    {cells : List Cell} (hcells : ∀ c ∈ cells, c.position ∈ positions) :
    FailsOnly (DefectAt positions) (checkNesting opened cells) := by
  induction cells generalizing opened with
  | nil =>
    rw [checkNesting]
    split
    · next p hp => exact failsOnly_error.2 (.malformed (hopened (List.mem_of_getLast? hp)) _)
    · exact failsOnly_ok _ ()
  | cons c cells ih =>
    obtain ⟨hc, hcells⟩ := List.forall_mem_cons.1 hcells
    simp only [checkNesting]
    split
    · split
      · exact ih (List.cons_subset.2 ⟨hc, hopened⟩) hcells
      · exact failsOnly_error.2 (.malformed hc _)
    · split
      · cases opened with
        | nil => exact failsOnly_error.2 (.malformed hc _)
        | cons o opened => exact ih (List.cons_subset.1 hopened).2 hcells
      · exact ih hopened hcells

end Skeleton

theorem Mark.map_position_ofCells (count : Nat) (cells : List Cell) :
    (ofCells count cells).map (·.position) = cells.map (·.position) := by
  induction cells generalizing count with
  | nil => rfl
  | cons cell cells ih => simp [ofCells, ih]

theorem Stretch.places_ofSkeleton (s : Skeleton) : (ofSkeleton s).places = s.places := by
  rw [places, ofSkeleton, Mark.map_position_ofCells, Skeleton.places]

/-- A skeleton that cannot be read has a defect at one of its places, or does not fit the tokens,
which is reported at the beginning of the formula. -/
theorem Expr.failsOnly_ofSkeleton (s : Skeleton) (tokens : List Token) :
    FailsOnly (DefectAt (0 :: s.places)) (ofSkeleton s tokens) := by
  have brackets : FailsOnly (DefectAt s.places) s.checkBrackets :=
    Skeleton.failsOnly_checkNesting (List.nil_subset _) fun c hc =>
      List.mem_append_left _ (List.mem_map_of_mem hc)
  have tree := local_read (Skeleton.maxNesting + 1) (.ofSkeleton s)
  rw [Stretch.places_ofSkeleton] at tree
  unfold ofSkeleton
  split
  · refine FailsOnly.mono ?_ fun _ => DefectAt.mono (List.subset_cons_self 0 s.places)
    exact brackets.bind fun _ _ => tree.bind fun b _ => failsOnly_ok _ b.tree
  · exact failsOnly_error.2 (.malformed List.mem_cons_self _)

end Formulary
