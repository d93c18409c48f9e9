import Formulary.Proofs.Bracket.Depth
import Formulary.Span
import Mathlib.Data.List.Induction

/-! # Scanning for operators

The spans that a scan lists are read off the text: each stands where it says, behind the one before
it.  A scan can be followed along a text that is put together from parts: over an operator, over a
character that begins none, and over brackets with all that they enclose.
-/

namespace Formulary.Span

variable {candidates : List (List Char)}

/-! ## The longest candidate -/

/-- Is it one of the longest of the texts, or nothing if there are none? -/
def IsLongest (texts : List (List Char)) : Option (List Char) → Prop
  | none => texts = []
  | some op => op ∈ texts ∧ ∀ x ∈ texts, x.length ≤ op.length

theorem isLongest_longest? (candidates : List (List Char)) (cs : List Char) :
    IsLongest (candidates.filter (·.isPrefixOf cs)) (longest? candidates cs) := by
  unfold longest?
  induction candidates.filter (·.isPrefixOf cs) using List.reverseRecOn with
  | nil => rfl
  | append_singleton xs x ih =>
    rw [List.foldl_append, List.foldl_cons, List.foldl_nil]
    split
    · next b hb =>
      rw [hb] at ih
      obtain ⟨hmem, hmax⟩ := ih
      split
      · next hle =>
        refine ⟨List.mem_append_right _ (List.mem_singleton_self x), fun y hy => ?_⟩
        rcases List.mem_append.1 hy with hy | hy
        · exact Nat.le_trans (hmax y hy) hle
        · exact Nat.le_of_eq (congrArg List.length (List.mem_singleton.1 hy))
      · next hlt =>
        refine ⟨List.mem_append_left _ hmem, fun y hy => ?_⟩
        rcases List.mem_append.1 hy with hy | hy
        · exact hmax y hy
        · rw [List.mem_singleton.1 hy]
          exact Nat.le_of_not_le hlt
    · next hb =>
      rw [hb] at ih
      obtain rfl : xs = [] := ih
      exact ⟨List.mem_singleton_self x, fun y hy =>
        Nat.le_of_eq (congrArg List.length (List.mem_singleton.1 hy))⟩

theorem longest?_eq_none_iff {cs : List Char} :
    longest? candidates cs = none ↔ ∀ op ∈ candidates, ¬op <+: cs := by
  have longest := isLongest_longest? candidates cs
  cases h : longest? candidates cs with
  | none =>
    rw [h] at longest
    simpa [List.filter_eq_nil_iff, IsLongest] using longest
  | some op =>
    rw [h] at longest
    have hop : op ∈ candidates ∧ op <+: cs := by simpa using longest.1
    exact iff_of_false (by simp) fun hnone => hnone op hop.1 hop.2

theorem longest?_eq_some_iff {cs op : List Char} :
    longest? candidates cs = some op ↔
      (op ∈ candidates ∧ op <+: cs) ∧ ∀ x ∈ candidates, x <+: cs → x.length ≤ op.length := by
  have longest := isLongest_longest? candidates cs
  cases h : longest? candidates cs with
  | none =>
    refine iff_of_false (by simp) fun hop => ?_
    exact longest?_eq_none_iff.1 h op hop.1.1 hop.1.2
  | some b =>
    rw [h] at longest
    simp only [IsLongest, List.mem_filter, List.isPrefixOf_iff_prefix, and_imp] at longest
    constructor
    · rintro ⟨⟩
      exact longest
    · -- two beginnings of one length are the same
      rintro ⟨⟨hmem, hpre⟩, hmax⟩
      have length : b.length = op.length :=
        Nat.le_antisymm (hmax b longest.1.1 longest.1.2) (longest.2 op hmem hpre)
      rw [(List.prefix_of_prefix_length_le longest.1.2 hpre (Nat.le_of_eq length)).eq_of_length length]

theorem longest?_eq_some {cs op : List Char} (h : longest? candidates cs = some op) :
    op ∈ candidates ∧ op <+: cs :=
  (longest?_eq_some_iff.1 h).1

/-! ## Following a scan -/

/-- Characters that belong to an operator are passed over. -/
theorem scan_skip (k : Nat) (d : Int) (i : Nat) (cs : List Char) :
    scan candidates k d i cs = scan candidates 0 d (i + k) (cs.drop k) := by
  induction k generalizing i cs with
  | zero => rfl
  | succ k ih =>
    cases cs with
    | nil => simp [scan]
    | cons c cs =>
      rw [scan, ih, List.drop_succ_cons]
      congr 1
      omega

theorem scan_of_longest?_eq_some {op cs : List Char} (h : longest? candidates cs = some op)
    (hop : op ≠ []) (i : Nat) :
    scan candidates 0 0 i cs =
      ⟨i, op⟩ :: scan candidates 0 0 (i + op.length) (cs.drop op.length) := by
  cases op with
  | nil => exact absurd rfl hop
  | cons x op =>
    cases cs with
    | nil => exact absurd (longest?_eq_some h).2 (by simp)
    | cons c cs =>
      rw [scan, if_pos rfl, h]
      simp only
      rw [scan_skip, List.length_cons, List.drop_succ_cons]
      congr 2
      omega

theorem scan_of_longest?_eq_none {c : Char} {cs : List Char}
    (h : longest? candidates (c :: cs) = none) (i : Nat) :
    scan candidates 0 0 i (c :: cs) = scan candidates 0 (deepen 0 c) (i + 1) cs := by
  rw [scan, if_pos rfl, h]

theorem scan_nested {d : Int} (hd : d ≠ 0) (c : Char) (cs : List Char) (i : Nat) :
    scan candidates 0 d i (c :: cs) = scan candidates 0 (deepen d c) (i + 1) cs := by
  rw [scan, if_neg hd]

theorem deepen_of_step? {d d' : Nat} {c : Char} (h : Bracket.step? d c = some d') (k : Nat) :
    deepen ((d + k : Nat) : Int) c = ((d' + k : Nat) : Int) := by
  rcases Bracket.step?_eq_some_iff.1 h with ⟨rfl, rfl⟩ | ⟨rfl, rfl⟩ | ⟨ho, hc, rfl⟩
  · simp [deepen]
    omega
  · simp [deepen]
    omega
  · simp [deepen, ho, hc]

/-- Nothing is found while a bracket is open that the text does not close. -/
theorem scan_append_nested {d d' : Nat} {xs : List Char}
    (h : Bracket.depthAfter? d xs = some d') (ys : List Char) (i : Nat) :
    scan candidates 0 ((d + 1 : Nat) : Int) i (xs ++ ys) =
      scan candidates 0 ((d' + 1 : Nat) : Int) (i + xs.length) ys := by
  induction xs generalizing d i with
  | nil =>
    cases h
    rfl
  | cons c cs ih =>
    obtain ⟨d₁, h₁, h₂⟩ := Option.bind_eq_some_iff.1 h
    rw [List.cons_append, scan_nested (by omega), deepen_of_step? h₁ 1, ih h₂]
    congr 1
    simp
    omega

/-- Brackets are passed over with all that they enclose. -/
theorem scan_group (hopen : ∀ cs, longest? candidates ('(' :: cs) = none) {xs : List Char}
    (h : Bracket.depthAfter? 0 xs = some 0) (ys : List Char) (i : Nat) :
    scan candidates 0 0 i ('(' :: xs ++ ')' :: ys) =
      scan candidates 0 0 (i + xs.length + 2) ys := by
  have inner := @scan_append_nested candidates 0 0 xs h (')' :: ys) (i + 1)
  rw [List.cons_append, scan_of_longest?_eq_none (hopen _)]
  change scan candidates 0 1 (i + 1) (xs ++ ')' :: ys) = _
  rw [show ((0 + 1 : Nat) : Int) = 1 from rfl] at inner
  rw [inner, scan_nested (by decide)]
  change scan candidates 0 0 (i + 1 + xs.length + 1) ys = _
  congr 1
  omega

/-! ## Where the spans stand -/

/-- Do the spans stand in the text, which begins at `i`, one behind the other? -/
def Fits : (i : Nat) → List Char → List Span → Prop
  | _, _, [] => True
  | i, cs, m :: ms =>
    ∃ xs ys, cs = xs ++ m.op ++ ys ∧ m.start = i + xs.length ∧ Fits m.stop ys ms

theorem Fits.append {i : Nat} {xs ys : List Char} {ms : List Span}
    (h : Fits (i + xs.length) ys ms) : Fits i (xs ++ ys) ms := by
  cases ms with
  | nil => trivial
  | cons m ms =>
    obtain ⟨zs, rest, rfl, hstart, hrest⟩ := h
    exact ⟨xs ++ zs, rest, by simp, by simp [hstart, Nat.add_assoc], hrest⟩

/-- Spans that are left out do not matter. -/
theorem Fits.filter {i : Nat} {cs : List Char} {ms : List Span} (h : Fits i cs ms)
    (p : Span → Bool) : Fits i cs (ms.filter p) := by
  induction ms generalizing i cs with
  | nil => trivial
  | cons m ms ih =>
    obtain ⟨xs, ys, rfl, hstart, hrest⟩ := h
    rw [List.filter_cons]
    split
    · exact ⟨xs, ys, rfl, hstart, ih hrest⟩
    · refine Fits.append ?_
      have : i + (xs ++ m.op).length = m.stop := by simp [stop, hstart, Nat.add_assoc]
      rw [this]
      exact ih hrest

theorem Fits.inside {i : Nat} {cs : List Char} {m : Span} {ms : List Span} (h : Fits i cs ms)
    (hm : m ∈ ms) : i ≤ m.start ∧ m.stop ≤ i + cs.length := by
  induction ms generalizing i cs with
  | nil => cases hm
  | cons n ms ih =>
    obtain ⟨xs, ys, rfl, hstart, hrest⟩ := h
    have hstop : n.stop = i + xs.length + n.op.length := by rw [stop, hstart]
    have hlength : (xs ++ n.op ++ ys).length = xs.length + n.op.length + ys.length := by
      rw [List.length_append, List.length_append]
    rcases List.mem_cons.1 hm with rfl | hm
    · omega
    · have := ih hrest hm
      omega

theorem Fits.pairwise {i : Nat} {cs : List Char} {ms : List Span} (h : Fits i cs ms) :
    ms.Pairwise fun m n => m.stop ≤ n.start := by
  induction ms generalizing i cs with
  | nil => exact .nil
  | cons m ms ih =>
    obtain ⟨xs, ys, rfl, hstart, hrest⟩ := h
    exact .cons (fun n hn => (hrest.inside hn).1) (ih hrest)

/-- A scan lists spans that stand in the text, and lists candidates only. -/
theorem fits_scan (d : Int) (i : Nat) (cs : List Char) :
    Fits i cs (scan candidates 0 d i cs) := by
  induction hn : cs.length using Nat.strongRecOn generalizing d i cs with
  | _ n ih =>
    cases cs with
    | nil => trivial
    | cons c cs =>
      simp only [List.length_cons] at hn
      rw [scan]
      split
      · exact ⟨[], c :: cs, rfl, rfl, trivial⟩
      · next x op hl =>
        have hl := (Option.ite_none_right_eq_some.1 hl).2
        obtain ⟨ys, hys⟩ := (longest?_eq_some hl).2
        obtain ⟨rfl, rfl⟩ : x = c ∧ op ++ ys = cs := by simpa using hys
        refine ⟨[], ys, rfl, rfl, ?_⟩
        rw [scan_skip, List.drop_left]
        have := ih ys.length (by simp at hn; omega) 0 (i + 1 + op.length) ys rfl
        rwa [show Span.stop ⟨i, x :: op⟩ = i + 1 + op.length by simp [stop]; omega]
      · have := ih cs.length (by omega) (deepen d c) (i + 1) cs rfl
        exact @Fits.append i [c] cs _ this

theorem op_mem_of_mem_scan {k : Nat} {d : Int} {i : Nat} {cs : List Char} {m : Span}
    (h : m ∈ scan candidates k d i cs) : m.op ∈ candidates := by
  induction cs generalizing k d i with
  | nil => simp [scan] at h
  | cons c cs ih =>
    cases k with
    | succ k => exact ih h
    | zero =>
      rw [scan] at h
      split at h
      · next hl =>
        have hl := (Option.ite_none_right_eq_some.1 hl).2
        cases List.mem_singleton.1 h
        exact (longest?_eq_some hl).1
      · next x op hl =>
        have hl := (Option.ite_none_right_eq_some.1 hl).2
        rcases List.mem_cons.1 h with rfl | h
        · exact (longest?_eq_some hl).1
        · exact ih h
      · exact ih h

end Formulary.Span
