/-
`verify` refines `check`: as long as the array program goes on, the
algorithm on views goes on with it.

`Rep s v` relates the verifier's variables to a view. The operand stack
is stored bottom first, so the relation speaks about reversed lists, and
the frame table is redundant: the `bottom` of a frame is the entry
height of that frame, the `top` of a frame the entry height of the next
one. Three facts about the view alone (`View.Ok`) make closing a frame
sound: heights never exceed the operands above them, the function's own
frame has height zero, and outside functions there are no operands.

`verifyStep_matches` is the step lemma, one case for every group of
labels of the switch, and says both ways which rounds go on.
`verifyStep_refines` is the one way; runs follow by induction over the
rounds.
-/
import Xv6Sume32.Sume.Proofs.Scan

namespace Xv6Sume32.Sume

open Lib

variable {j q : Nat} {v' : View} {t : Ty} {ts : List Instr} {n k : Int} {fn : FnInfo}

-- ======== list positions

/-- An entry of a list stays where it is when the list is extended. -/
theorem getElem?_append_some {α : Type} {l r : List α} {x : α}
    (h : l[j]? = some x) : (l ++ r)[j]? = some x := by
  rw [List.getElem?_append_left (lt_length h)]
  exact h

/-- An entry of an extended list is an old one or the new last one. -/
theorem getElem?_snoc_inv {α : Type} {l : List α} {a x : α}
    (h : (l ++ [a])[j]? = some x) : (j < l.length ∧ l[j]? = some x) ∨ (j = l.length ∧ x = a) := by
  obtain ⟨hj, hx⟩ := List.getElem?_eq_some_iff.1 h
  rw [List.length_append, List.length_singleton] at hj
  by_cases hjl : j < l.length
  · rw [List.getElem?_append_left hjl] at h
    exact Or.inl ⟨hjl, h⟩
  · obtain rfl : j = l.length := by omega
    refine Or.inr ⟨rfl, ?_⟩
    rw [← hx]
    simp

-- ======== well-formed views

/-- The facts about a view that every token preserves. -/
structure View.Ok (v : View) : Prop where
  mono : (v.stk.length :: v.hts).Pairwise (· ≥ ·)
  last : v.hts = [] ∨ v.hts.getLast? = some 0
  empty : v.hts = [] → v.stk = []
  begun : v.hts ≠ [] → 1 ≤ v.fns

theorem View.ok_init (slot : Int) : (View.init slot).Ok :=
  ⟨by simp [View.init], Or.inl rfl, fun _ => rfl, fun h => absurd rfl h⟩

/-- No frame starts above the stack. -/
theorem View.Ok.height_le {v : View} {h n : Nat} (hok : v.Ok) (hh : v.hts[n]? = some h) :
    h ≤ v.stk.length :=
  (List.pairwise_cons.1 hok.mono).1 h (List.mem_of_getElem? hh)

theorem View.push_inv {v : View} (h : v.push t = some v') :
    v.hts ≠ [] ∧ v.stk.length < 4096 ∧ v' = { v with stk := t :: v.stk } := by
  unfold View.push at h
  split at h
  · next hc =>
    cases h
    exact ⟨hc.1, hc.2, rfl⟩
  · cases h

theorem View.pop_inv {v : View} (h : v.pop = some (t, v')) :
    ∃ h₀ hs, v.hts = h₀ :: hs ∧ v.stk = t :: v'.stk ∧ h₀ ≠ v.stk.length
      ∧ v' = { v with stk := v'.stk } := by
  unfold View.pop at h
  split at h
  · next h₀ hs t' rest hh hst =>
    split at h
    · next hne =>
      cases h
      exact ⟨h₀, hs, hh, hst, hne, rfl⟩
    · cases h
  · cases h

theorem View.popExpect_inv {v : View} (h : v.popExpect t = some v') : v.pop = some (t, v') := by
  unfold View.popExpect at h
  cases hp : v.pop with
  | none => rw [hp] at h; cases h
  | some p =>
    obtain ⟨t', v''⟩ := p
    rw [hp] at h
    replace h : (if t' = t then some v'' else none) = some v' := h
    split at h
    · next heq =>
      cases h
      rw [heq]
    · cases h

theorem View.Ok.push {v : View} (hok : v.Ok) (h : v.push t = some v') : v'.Ok := by
  obtain ⟨hne, -, rfl⟩ := View.push_inv h
  obtain ⟨hm, hl, -, hb⟩ := hok
  rw [List.pairwise_cons] at hm
  refine ⟨?_, hl, fun he => absurd he hne, hb⟩
  rw [List.pairwise_cons]
  refine ⟨fun x hx => ?_, hm.2⟩
  have := hm.1 x hx
  simp only [List.length_cons]
  omega

theorem View.Ok.pop {v : View} (hok : v.Ok) (h : v.pop = some (t, v')) : v'.Ok := by
  obtain ⟨h₀, hs, hh, hst, hne, hv⟩ := View.pop_inv h
  have hhts : v'.hts = v.hts := by rw [hv]
  obtain ⟨hm, hl, -, hb⟩ := hok
  rw [hh, List.pairwise_cons, List.pairwise_cons] at hm
  obtain ⟨htop, hrest, htail⟩ := hm
  have h0 := htop h₀ (List.mem_cons_self ..)
  rw [hst, List.length_cons] at h0 hne
  refine ⟨?_, by rw [hhts]; exact hl, fun he => ?_, by rw [hv]; exact hb⟩
  · rw [hhts, hh, List.pairwise_cons, List.pairwise_cons]
    refine ⟨fun x hx => ?_, hrest, htail⟩
    rcases List.mem_cons.1 hx with rfl | hx
    · omega
    · have := hrest x hx
      omega
  · rw [hhts, hh] at he
    cases he

theorem View.Ok.popList {ts : List Ty} :
    ∀ {v v' : View}, v.Ok → View.popList ts v = some v' → v'.Ok := by
  induction ts with
  | nil =>
    intro v v' hok h
    cases h
    exact hok
  | cons t ts ih =>
    intro v v' hok h
    unfold View.popList at h
    cases hp : v.popExpect t with
    | none => rw [hp] at h; cases h
    | some w =>
      rw [hp] at h
      exact ih (hok.pop (View.popExpect_inv hp)) h

theorem View.Ok.enter {v : View} (hok : v.Ok) (h : v.enter = some v') : v'.Ok := by
  unfold View.enter at h
  split at h
  · next hc =>
    cases h
    obtain ⟨hm, hl, -, hb⟩ := hok
    refine ⟨?_, Or.inr ?_, nofun, fun _ => hb hc.1⟩
    · rw [List.pairwise_cons]
      refine ⟨fun x hx => ?_, hm⟩
      rcases List.mem_cons.1 hx with rfl | hx
      · exact Nat.le_refl _
      · exact (List.pairwise_cons.1 hm).1 x hx
    · rcases hl with hl | hl
      · exact absurd hl hc.1
      · show (v.stk.length :: v.hts).getLast? = some 0
        rw [List.getLast?_cons, hl]
        rfl
  · cases h

theorem cut_length {α : Type} {h : Nat} {l : List α} (hle : h ≤ l.length) :
    (cut h l).length = h := by
  unfold cut
  rw [List.length_drop]
  omega

theorem View.Ok.leave {v : View} (hok : v.Ok) (h : v.leave = some v') : v'.Ok := by
  obtain ⟨hm, hl, -, hb⟩ := hok
  unfold View.leave at h
  split at h
  · cases h
  · cases h
    exact ⟨by simp, Or.inl rfl, fun _ => rfl, fun h => absurd rfl h⟩
  · next h₀ h₁ hs hh =>
    cases h
    rw [hh] at hm hl
    rw [List.pairwise_cons] at hm
    have hle := hm.1 h₀ (List.mem_cons_self ..)
    refine ⟨?_, ?_, nofun, fun _ => hb (by rw [hh]; exact List.cons_ne_nil _ _)⟩
    · show ((cut h₀ v.stk).length :: h₁ :: hs).Pairwise _
      rw [cut_length hle]
      exact hm.2
    · rcases hl with hl | hl
      · cases hl
      · refine Or.inr ?_
        rw [List.getLast?_cons_cons] at hl
        exact hl

theorem View.Ok.begin {v : View} (h : v.begin = some v') : v'.Ok := by
  unfold View.begin at h
  split at h
  · cases h
    exact ⟨by simp, Or.inr rfl, nofun, fun _ => Nat.le_add_left _ _⟩
  · cases h

-- ======== representation

/-- The verifier's variables hold a view. -/
structure Rep (s : VState) (v : View) : Prop where
  frame : s.curFrame = (v.hts.length : Int) - 1
  pos : s.stkPos = if v.hts = [] then -1 else (v.stk.length : Int)
  stk : ∀ (i : Nat) (t : Ty), v.stk.reverse[i]? = some t → s.stack i = t
  bottom : ∀ j h : Nat, v.hts.reverse[j]? = some h →
    (s.frames j).bottom = h
  top : ∀ j h : Nat, v.hts.reverse[j + 1]? = some h →
    (s.frames j).top = h
  bottom0 : (s.frames 0).bottom = 0
  cap : v.stk.length ≤ 4096
  depth : v.hts.length ≤ 64
  prev : s.prevFnNum = (v.fns : Int) - 1
  fn : s.curFn = s.prevFnNum
  fnum : s.fnum = v.last

theorem rep_init (slot : Int) : Rep (VState.init slot) (View.init slot) where
  frame := rfl
  pos := rfl
  stk := fun i t h => by simp [View.init] at h
  bottom := fun j h hj => by simp [View.init] at hj
  top := fun j h hj => by simp [View.init] at hj
  bottom0 := rfl
  cap := by simp [View.init]
  depth := by simp [View.init]
  prev := rfl
  fn := rfl
  fnum := rfl

/-- The same for a well-formed view, with the next token at `p`. -/
def RepAt (p : Nat) (s : VState) (v : View) : Prop := Rep s v ∧ v.Ok ∧ s.place = p

/-- The relation does not look at the place. -/
theorem Rep.place {s : VState} {v : View} (h : Rep s v) (p : Nat) : Rep { s with place := p } v :=
  ⟨h.frame, h.pos, h.stk, h.bottom, h.top, h.bottom0, h.cap, h.depth, h.prev, h.fn, h.fnum⟩

/-- Storing into `fnum` is setting `last`. -/
theorem Rep.setFnum {s : VState} {v : View} (h : Rep s v) (n : Int) :
    Rep { s with fnum := n } { v with last := n } :=
  ⟨h.frame, h.pos, h.stk, h.bottom, h.top, h.bottom0, h.cap, h.depth, h.prev, h.fn, rfl⟩

theorem Rep.isInFn {s : VState} {v : View} (h : Rep s v) : s.isInFn = true ↔ v.hts ≠ [] := by
  unfold VState.isInFn
  rw [decide_eq_true_eq, h.frame, ← List.length_pos_iff]
  omega

/-- Inside a function the stack position is the operand height. -/
theorem Rep.pos_of {s : VState} {v : View} (h : Rep s v)
    (hne : v.hts ≠ []) : s.stkPos = v.stk.length := by
  rw [h.pos, if_neg hne]

/-- The innermost frame starts at the innermost height. -/
theorem Rep.bottom_top {s : VState} {v : View} (h : Rep s v) {h₀ : Nat}
    {hs : List Nat} (hh : v.hts = h₀ :: hs) : (s.frames s.curFrame).bottom = h₀ := by
  have hcur : s.curFrame = ((hs.length : Nat) : Int) := by
    rw [h.frame, hh, List.length_cons]
    omega
  rw [hcur]
  refine h.bottom hs.length h₀ ?_
  rw [hh, List.reverse_cons, List.getElem?_append_right (by rw [List.length_reverse])]
  simp

variable {s : VState} {v : View} {p : Nat}

-- ======== checks

theorem inside {c : Prop} [Decidable c] (h : c) : inRange c = .ok () := inRange_decide.2 h

theorem outside {c : Prop} [Decidable c] (h : ¬ c) : inRange c = .error .undefined :=
  if_neg (decide_eq_false h ▸ Bool.false_ne_true)

section Ops

variable {E : Stop → Prop} (hE : E .reject)

include hE

/-- A check of the program that is one of the view too. -/
theorem require_matches {α β : Type} {R : α → β → Prop} {f : Unit → Res α} {y : Option β}
    {b : Bool} {c : Prop} (hb : b = true ↔ c) (hn : ¬ c → y = none)
    (h : c → Matches E R (f ()) y) : Matches E R (require b >>= f) y := by
  cases b with
  | true => exact h (hb.1 rfl)
  | false =>
    rw [hn fun hc => absurd (hb.2 hc) nofun]
    exact .fail hE

-- ======== stack operations

theorem pushT_matches (h : RepAt p s v) : Matches E (RepAt p) (pushT t s) (v.push t) := by
  obtain ⟨h, hok, hpl⟩ := h
  have hsz : stackSz = 4096 := rfl
  refine require_matches hE decide_eq_true_iff
    (fun h1 => if_neg fun hc => h1 (by rw [h.pos_of hc.1]; omega)) fun h1 => ?_
  have hne : v.hts ≠ [] := by
    intro he
    rw [h.pos, if_pos he] at h1
    exact h1 rfl
  have hpos := h.pos_of hne
  refine require_matches hE decide_eq_true_iff (fun h2 => if_neg fun hc => h2 (by omega))
    fun h2 => .known (inside (by omega)) ?_
  have hv : v.push t = some { v with stk := t :: v.stk } := if_pos ⟨hne, by omega⟩
  rw [hv]
  refine .ok ⟨⟨h.frame, ?_, ?_, h.bottom, h.top, h.bottom0, ?_, h.depth, h.prev, h.fn, h.fnum⟩,
    hok.push hv, hpl⟩
  · show s.stkPos + 1 = if v.hts = [] then _ else _
    rw [if_neg hne, hpos, List.length_cons]
    omega
  · intro i t' hi
    show (if (i : Int) = s.stkPos then t else s.stack i) = t'
    rw [List.reverse_cons] at hi
    rcases getElem?_snoc_inv hi with ⟨hil, hi⟩ | ⟨hil, rfl⟩
    · rw [List.length_reverse] at hil
      rw [if_neg (by omega)]
      exact h.stk i t' hi
    · rw [List.length_reverse] at hil
      rw [if_pos (by omega)]
  · rw [List.length_cons]
    omega

omit hE in
theorem View.pop_none (h : ∀ h₀ hs, v.hts = h₀ :: hs → h₀ = v.stk.length) : v.pop = none := by
  cases hp : v.pop with
  | none => rfl
  | some r =>
    obtain ⟨h₀, hs, hh, -, hne, -⟩ := View.pop_inv hp
    exact absurd (h h₀ hs hh) hne

theorem popT_matches (h : RepAt p s v) :
    Matches E (fun r u => r.1 = u.1 ∧ RepAt p r.2 u.2) (popT s) v.pop := by
  obtain ⟨h, hok, hpl⟩ := h
  have hcur := h.frame
  have hdepth := h.depth
  have hcap := h.cap
  have hsz : stackSz = 4096 := rfl
  have hfr : framesSz = 64 := rfl
  refine require_matches hE decide_eq_true_iff (fun h1 => View.pop_none fun h₀ hs hh => ?_)
    fun h1 => ?_
  · rw [hh, List.length_cons] at hcur
    omega
  obtain ⟨h₀, hs, hh⟩ : ∃ h₀ hs, v.hts = h₀ :: hs := by
    cases hv : v.hts with
    | nil =>
      rw [hv] at hcur
      exact absurd hcur h1
    | cons h₀ hs => exact ⟨h₀, hs, rfl⟩
  have hne : v.hts ≠ [] := by rw [hh]; exact List.cons_ne_nil _ _
  have hpos := h.pos_of hne
  have hle : h₀ ≤ v.stk.length := hok.height_le (n := 0) (by rw [hh]; rfl)
  refine .known (inside (by omega)) (require_matches hE decide_eq_true_iff (fun h3 => ?_)
    fun h3 => ?_)
  · refine View.pop_none fun h' hs' hh' => ?_
    rw [h.bottom_top hh', hpos] at h3
    omega
  rw [h.bottom_top hh] at h3
  obtain ⟨t', rest, hst⟩ : ∃ t' rest, v.stk = t' :: rest :=
    List.exists_cons_of_length_pos (by omega)
  have hlen : v.stk.length = rest.length + 1 := by
    rw [hst, List.length_cons]
  have hget : s.stack (s.stkPos - 1) = t' := by
    have := h.stk rest.length t' (by
      rw [hst, List.reverse_cons,
        List.getElem?_append_right (by rw [List.length_reverse])]
      simp)
    rw [← this]
    congr 1
    omega
  have hv : v.pop = some (t', { v with stk := rest }) := by
    unfold View.pop
    simp only [hh, hst]
    rw [if_pos]
    rw [← hst]
    omega
  rw [hv]
  refine .known (inside (by omega)) (.ok ⟨hget, ⟨h.frame, ?_, ?_, h.bottom, h.top, h.bottom0, ?_,
    h.depth, h.prev, h.fn, h.fnum⟩, hok.pop hv, hpl⟩)
  · show s.stkPos - 1 = if v.hts = [] then _ else (rest.length : Int)
    rw [if_neg hne]
    omega
  · intro i t'' hi
    refine h.stk i t'' ?_
    rw [hst, List.reverse_cons]
    exact getElem?_append_some hi
  · show rest.length ≤ 4096
    omega

theorem popExpect_matches (h : RepAt p s v) :
    Matches E (RepAt p) (popExpect t s) (v.popExpect t) := by
  refine (popT_matches hE h).bind fun r u hru => ?_
  show Matches _ _ _ (if u.1 = t then some u.2 else none)
  refine require_matches hE decide_eq_true_iff (fun hne => if_neg (hru.1 ▸ hne)) fun heq => ?_
  rw [if_pos (hru.1.symm.trans heq)]
  exact .ok hru.2

theorem pushFrame_matches (h : RepAt p s v) (hne : v.hts ≠ []) :
    Matches E (RepAt p) (pushFrame s) v.enter := by
  obtain ⟨h, hok, hpl⟩ := h
  have hlen : 0 < v.hts.length := List.length_pos_iff.2 hne
  have hcur := h.frame
  have hd := h.depth
  have hfr : framesSz = 64 := rfl
  refine require_matches hE decide_eq_true_iff (fun h1 => if_neg (by omega)) fun h1 => ?_
  rw [if_pos (by omega)]
  refine .known (inside (by omega)) ?_
  have hpos := h.pos_of hne
  have hv : v.enter = some { v with hts := v.stk.length :: v.hts } := if_pos ⟨hne, by omega⟩
  rw [hv]
  -- the new frame has number `v.hts.length`, the one it lies in the
  -- number before
  have hlast : ∀ j h' : Nat, (v.stk.length :: v.hts).reverse[j]? = some h' →
      (j < v.hts.length ∧ v.hts.reverse[j]? = some h')
        ∨ (j = v.hts.length ∧ h' = v.stk.length) := by
    intro j h' hj
    rw [List.reverse_cons] at hj
    have := getElem?_snoc_inv hj
    rwa [List.length_reverse] at this
  refine .ok ⟨⟨?_, ?_, h.stk, ?_, ?_, ?_, h.cap, ?_, h.prev, h.fn, h.fnum⟩, hok.enter hv, hpl⟩
  · show s.curFrame + 1 = ((v.stk.length :: v.hts).length : Int) - 1
    rw [List.length_cons]
    omega
  · show s.stkPos = if v.stk.length :: v.hts = [] then _ else _
    rw [if_neg (by simp)]
    exact hpos
  · intro j h' hj
    show (if (j : Int) = s.curFrame then (_ : StackFrame)
      else if (j : Int) = s.curFrame + 1 then _ else s.frames j).bottom = _
    rcases hlast _ _ hj with ⟨hjl, hj⟩ | ⟨rfl, rfl⟩
    · have hold := h.bottom j h' hj
      split
      · exact hold
      · rw [if_neg (by omega)]
        exact hold
    · rw [if_neg (by omega), if_pos (by omega)]
      exact hpos
  · intro j h' hj
    show (if (j : Int) = s.curFrame then (_ : StackFrame)
      else if (j : Int) = s.curFrame + 1 then _ else s.frames j).top = _
    rcases hlast _ _ hj with ⟨hjl, hj⟩ | ⟨hjl, rfl⟩
    · rw [if_neg (by omega), if_neg (by omega)]
      exact h.top j h' hj
    · rw [if_pos (by omega)]
      exact hpos
  · show (if (0 : Int) = s.curFrame then (_ : StackFrame)
      else if (0 : Int) = s.curFrame + 1 then _ else s.frames 0).bottom = _
    split
    · exact h.bottom0
    · rw [if_neg (by omega)]
      exact h.bottom0
  · show (v.stk.length :: v.hts).length ≤ 64
    rw [List.length_cons]
    omega

theorem popFrame_matches (h : RepAt p s v) : Matches E (RepAt p) (popFrame s) v.leave := by
  obtain ⟨h, hok, hpl⟩ := h
  have hcur := h.frame
  have hdepth := h.depth
  have hfr : framesSz = 64 := rfl
  have hleave : ∀ {w : View}, v.leave = some w → w.Ok := hok.leave
  unfold View.leave at hleave ⊢
  refine require_matches hE decide_eq_true_iff (fun h1 => ?_) fun h1 => ?_
  · rw [List.eq_nil_of_length_eq_zero (show v.hts.length = 0 by omega)]
  cases hh : v.hts with
  | nil =>
    rw [hh] at hcur
    exact absurd hcur h1
  | cons h₀ hs =>
    rw [hh] at hleave
    cases hs with
    | nil =>
      rw [hh, List.length_singleton] at hcur
      rw [if_neg (by omega)]
      refine .ok ⟨⟨?_, rfl, fun i t hi => by simp at hi,
        fun j x hj => by simp at hj, fun j x hj => by simp at hj,
        h.bottom0, by simp, by simp, h.prev, h.fn, h.fnum⟩, hleave rfl, hpl⟩
      show s.curFrame - 1 = _
      rw [List.length_nil]
      omega
    | cons h₁ hs =>
      rw [hh, List.length_cons, List.length_cons] at hcur hdepth
      rw [if_pos (by omega)]
      have hle : h₀ ≤ v.stk.length := hok.height_le (n := 0) (by rw [hh]; rfl)
      have hfr : s.curFrame - 1 = ((hs.length : Nat) : Int) := by omega
      have htop : (s.frames (s.curFrame - 1)).top = h₀ := by
        rw [hfr]
        refine h.top hs.length h₀ ?_
        rw [hh, List.reverse_cons, List.getElem?_append_right (by simp)]
        simp
      refine .known (inside (by omega)) (.ok ⟨⟨?_, ?_, ?_, ?_, ?_, h.bottom0, ?_, ?_, h.prev, h.fn,
        h.fnum⟩, hleave rfl, hpl⟩)
      · show s.curFrame - 1 = ((h₁ :: hs).length : Int) - 1
        rw [List.length_cons]
        omega
      · show (s.frames (s.curFrame - 1)).top
          = if h₁ :: hs = [] then _ else ((cut h₀ v.stk).length : Int)
        rw [if_neg (by simp), htop, cut_length hle]
      · intro i t hi
        refine h.stk i t ?_
        have hrev : (cut h₀ v.stk).reverse = v.stk.reverse.take h₀ := by
          unfold cut
          rw [List.reverse_drop]
          congr 1
          omega
        rw [hrev] at hi
        by_cases hi0 : i < h₀
        · rwa [List.getElem?_take_of_lt hi0] at hi
        · rw [List.getElem?_eq_none (by
            rw [List.length_take]
            omega)] at hi
          cases hi
      · intro j x hj
        refine h.bottom j x ?_
        rw [hh, List.reverse_cons]
        exact getElem?_append_some hj
      · intro j x hj
        refine h.top j x ?_
        rw [hh, List.reverse_cons]
        exact getElem?_append_some hj
      · show (cut h₀ v.stk).length ≤ 4096
        have := h.cap
        rw [cut_length hle]
        omega
      · show (h₁ :: hs).length ≤ 64
        rw [List.length_cons]
        omega

-- ======== table reads

omit hE

variable {tab : FnTable} {sigs : List Sig} (htab : TableRep tab sigs)

theorem fnAt_of (h0 : 0 ≤ n) (h1 : n < 64) : tab.fnAt n = .ok (tab.fns n.toNat) :=
  bind_eq_ok.2 ⟨(), inside ⟨h0, h1⟩, rfl⟩

theorem fnAt_outside (h : ¬ (0 ≤ n ∧ n < 64)) : tab.fnAt n = .error .undefined := by
  show (inRange (0 ≤ n ∧ n < 64) >>= _) = _
  rw [outside h]
  rfl

theorem fnAt_inv (h : tab.fnAt k = .ok fn) : 0 ≤ k ∧ k < 64 ∧ fn = tab.fns k.toNat := by
  unfold FnTable.fnAt at h
  obtain ⟨_, h1, h⟩ := bind_eq_ok.1 h
  simp only [inRange_decide] at h1
  cases h
  exact ⟨h1.1, h1.2, rfl⟩

include htab

/-- Reading through a pointer of the table reads the declared list. -/
theorem typeAt_of {ptr : Option Nat} {m i : Nat} {l : List Ty} (h : ListRep tab ptr m l)
    (hi : i < l.length) : tab.typeAt ptr i = .ok l[i] := by
  obtain ⟨-, off, rfl, hle, hget⟩ := h
  have := htab.heap
  rw [← hget i hi]
  exact bind_eq_ok.2 ⟨(), inside (by omega), rfl⟩

include hE

/-- `get_local_t` finds the declared type of a local. -/
theorem getLocalT_matches (hU : 64 < v.fns → E .undefined) (h : Rep s v) (hb : 1 ≤ v.fns) :
    Matches E (· = ·) (getLocalT tab s.curFn n) (v.sig sigs >>= fun g => g.localT n) := by
  have hcur : s.curFn = ((v.fns - 1 : Nat) : Int) := by
    have h1 := h.fn
    have h2 := h.prev
    omega
  have hlen := htab.len
  have hsz : fnInfosSz = 64 := rfl
  unfold View.sig
  rw [hcur]
  refine require_matches hE decide_eq_true_iff (fun hn => ?_) fun hn => ?_
  · cases sigs[v.fns - 1]? with
    | none => rfl
    | some g => exact if_pos (by omega)
  by_cases hin : v.fns - 1 < 64
  swap
  · rw [List.getElem?_eq_none (by omega), fnAt_outside (by omega)]
    exact .fail (hU (by omega))
  refine .known (fnAt_of (by omega) (by omega)) ?_
  rw [Int.toNat_natCast]
  cases hg : sigs[v.fns - 1]? with
  | none =>
    -- an entry that was never filled has no locals
    rw [htab.zero _ (List.getElem?_eq_none_iff.1 hg)]
    show Matches _ _ (if n < ((0 : Nat) : Int) then _ else (require _ >>= _)) _
    rw [if_neg (by omega)]
    refine require_matches hE decide_eq_true_iff (fun _ => rfl) fun h2 => ?_
    have h2 : n - ((0 : Nat) : Int) < ((0 : Nat) : Int) := h2
    omega
  | some g =>
    have hrep := htab.fn _ _ hg
    have hpn := hrep.params.1
    have hln := hrep.locals.1
    have hy : g.localT n = (g.params ++ g.locals)[n.toNat]? := if_neg (by omega)
    show Matches _ _ _ (g.localT n)
    rw [hy]
    split
    · have hlt : n.toNat < g.params.length := by omega
      rw [typeAt_of htab hrep.params hlt, List.getElem?_append_left hlt,
        List.getElem?_eq_getElem hlt]
      exact .ok rfl
    · rw [List.getElem?_append_right (by omega)]
      refine require_matches hE decide_eq_true_iff
        (fun hno => List.getElem?_eq_none (by omega)) fun h2 => ?_
      have hlt : (n - (tab.fns (v.fns - 1)).paramN).toNat < g.locals.length := by omega
      rw [typeAt_of htab hrep.locals hlt,
        show n.toNat - g.params.length = (n - (tab.fns (v.fns - 1)).paramN).toNat by omega,
        List.getElem?_eq_getElem hlt]
      exact .ok rfl

/-- The argument loop pops the parameter types, the last first. -/
theorem popParams_matches {g : Sig} (hfn : FnRep tab fn g)
    {n : Nat} (hn : n ≤ g.params.length) (h : RepAt p s v) :
    Matches E (RepAt p) (popParams tab fn n s) (View.popList (g.params.take n).reverse v) := by
  induction n generalizing s v with
  | zero => exact .ok h
  | succ n ih =>
    have hlt : n < g.params.length := hn
    rw [List.take_add_one, List.getElem?_eq_getElem hlt, List.reverse_append]
    show Matches _ _ _ ((v.pop >>= _) >>= _)
    rw [bind_assoc]
    refine (popT_matches hE h).bind fun r u hru => .known (typeAt_of htab hfn.params hlt) ?_
    show Matches _ _ _ ((if u.1 = g.params[n] then some u.2 else none) >>= _)
    refine require_matches hE decide_eq_true_iff (fun hne => ?_) fun heq => ?_
    · rw [if_neg (hru.1 ▸ hne)]
      rfl
    · rw [if_pos (hru.1.symm.trans heq)]
      exact ih (Nat.le_of_lt hn) hru.2

end Ops

-- ======== the step lemma

/-- What `instrAt` found. -/
theorem instrAt_inv {prog : List Byte} {p p' : Nat} {i : Instr} (h : instrAt prog p = .ok (i, p')) :
    ∃ b, prog[p]? = some b ∧ Token.ofByte b = some i.token ∧ (i.token.operand = .none → p' = p + 1)
      ∧ (i.token.operand = .int → getInt prog (p + 1) = .ok (i.arg, p'))
      ∧ (i.token.operand = .types → ∃ q, getTypeList prog (p + 1) = .ok (i.params, q)
            ∧ getTypeList prog q = .ok (i.locals, p')) := by
  unfold instrAt at h
  split at h
  · cases h
  · next b hb =>
    split at h
    · cases h
    · next t ht =>
      refine ⟨b, hb, ?_⟩
      split at h
      · next hop =>
        cases h
        exact ⟨ht, fun _ => rfl, fun hc => absurd (hop.symm.trans hc) (by decide),
          fun hc => absurd (hop.symm.trans hc) (by decide)⟩
      · next hop =>
        obtain ⟨⟨v, q⟩, hv, h⟩ := bind_eq_ok.1 h
        cases h
        exact ⟨ht, fun hc => absurd (hop.symm.trans hc) (by decide), fun _ => hv,
          fun hc => absurd (hop.symm.trans hc) (by decide)⟩
      · next hop =>
        obtain ⟨⟨ps, q⟩, hp, h⟩ := bind_eq_ok.1 h
        obtain ⟨⟨ls, r⟩, hl, h⟩ := bind_eq_ok.1 h
        cases h
        exact ⟨ht, fun hc => absurd (hop.symm.trans hc) (by decide),
          fun hc => absurd (hop.symm.trans hc) (by decide), fun _ => ⟨q, hp, hl⟩⟩

/-- The operand a group of labels reads. -/
theorem vcase_operand (t : Token) :
    t.operand = match t.vcase with
      | .const | .getL | .call | .setL | .br | .brIf => .int
      | .declfn => .types
      | _ => .none := by
  cases t <;> rfl

/-- The groups that want an `end` next. -/
theorem vcase_needsEnd (t : Token) :
    t.needsEnd = match t.vcase with
      | .trap | .ret | .br => true
      | _ => false := by
  cases t <;> rfl

theorem requireEnd_eq {prog : List Byte} {p : Nat} :
    requireEnd prog p = require (prog[p]? = some endByte) := by
  unfold requireEnd
  cases prog[p]? with
  | none => rfl
  | some b => simp

theorem skipTypeList_of {prog : List Byte} {p : Nat} {ts : List Ty}
    (h : getTypeList prog p = .ok (ts, q)) : skipTypeList prog p = .ok q := by
  unfold skipTypeList
  rw [h]

/-- The table entry of a `call` operand. -/
theorem callee_rep {tab : FnTable} {sigs : List Sig}
    (htab : TableRep tab sigs) (h0 : 0 ≤ n) (hlt : n < sigs.length) (h : tab.fnAt n = .ok fn) :
    ∃ g, sigNum sigs n = some g ∧ FnRep tab fn g := by
  obtain ⟨-, -, rfl⟩ := fnAt_inv h
  have hlen : n.toNat < sigs.length := by omega
  refine ⟨sigs[n.toNat], ?_, htab.fn _ _ (List.getElem?_eq_getElem hlen)⟩
  unfold sigNum
  rw [if_neg (by omega), List.getElem?_eq_getElem hlen]

/-- The result type a `ret` is checked against. -/
theorem retT_rep {tab : FnTable} {sigs : List Sig} {s : VState} {v : View}
    (htab : TableRep tab sigs) (hrep : Rep s v)
    (h : tab.fnAt s.fnum = .ok fn) : v.retT sigs = some fn.rt := by
  obtain ⟨h0, h1, rfl⟩ := fnAt_inv h
  rw [hrep.fnum] at h0 h1 ⊢
  unfold View.retT
  rw [if_pos ⟨h0, h1⟩]
  cases hg : sigs[v.last.toNat]? with
  | none =>
    rw [htab.zero _ (List.getElem?_eq_none_iff.1 hg)]
    rfl
  | some g =>
    rw [(htab.fn _ _ hg).rt]
    rfl

variable {prog : List Byte} {tab : FnTable} {sigs : List Sig} {i : Instr}

/-- Only a declaration passes outside a function. -/
theorem check_inFn (hd : i.token.isDecl = false) (h : check sigs v i = some v') : v.hts ≠ [] := by
  have hpop : ∀ {t : Ty} {w : View}, v.pop = some (t, w) → v.hts ≠ [] := by
    intro t w hp
    obtain ⟨h₀, hs, hh, -⟩ := View.pop_inv hp
    rw [hh]
    exact List.cons_ne_nil _ _
  unfold check at h
  cases hc : i.token.vcase <;> simp only [hc] at h
  case const | memsz => exact (View.push_inv h).1
  case unary | binary =>
    obtain ⟨w, hw, -⟩ := Option.bind_eq_some_iff.1 h
    exact hpop (View.popExpect_inv hw)
  case store | setL =>
    obtain ⟨⟨t, w⟩, hw, -⟩ := Option.bind_eq_some_iff.1 h
    exact hpop hw
  case trap | ret | call =>
    split at h
    · next hne => exact hne
    · cases h
  case open_ =>
    unfold View.enter at h
    split at h
    · next hg => exact hg.1
    · cases h
  case end_ =>
    intro hnil
    unfold View.leave at h
    rw [hnil] at h
    cases h
  case getL =>
    obtain ⟨g, -, h⟩ := Option.bind_eq_some_iff.1 h
    obtain ⟨t, -, h⟩ := Option.bind_eq_some_iff.1 h
    exact (View.push_inv h).1
  case br | brIf =>
    split at h
    · next hl =>
      intro hnil
      have h0 := hl.1
      have h1 := hl.2
      rw [hnil] at h1
      simp at h1
      omega
    · cases h
  case declfn =>
    cases ht : i.token <;> rw [ht] at hc hd <;> first | cases hc; done | cases hd

/-- A function number that is not one of the table: `fnum` at a `ret`, or
the function being scanned. -/
def BadFn (prog : List Byte) (p : Nat) (v : View) (i : Instr) : Prop :=
  (i.token = .ret ∧ v.hts ≠ [] ∧ prog[p]? = some endByte ∧ ¬ (0 ≤ v.last ∧ v.last < 64)) ∨
    64 < v.fns

section Step

variable {E : Stop → Prop} (hE : E .reject) (htab : TableRep tab sigs)

include hE htab

theorem ret_matches (hU : ¬ (0 ≤ v.last ∧ v.last < 64) → E .undefined) (h : RepAt p s v)
    (hend : prog[p]? = some endByte) :
    Matches E (RepAt p) (do
        let fn ← tab.fnAt s.fnum
        let s ← if fn.rt ≠ 0 then popExpect fn.rt s else .ok s
        requireEnd prog s.place
        .ok s)
      (do
        let t ← v.retT sigs
        if t ≠ 0 then v.popExpect t else some v) := by
  have hq : ∀ {u : VState} {w : View}, RepAt p u w → requireEnd prog u.place = .ok () := by
    intro u w hu
    rw [requireEnd_eq, hu.2.2]
    exact require_decide.2 hend
  rw [h.1.fnum]
  by_cases hin : 0 ≤ v.last ∧ v.last < 64
  · have hat : tab.fnAt v.last = .ok _ := fnAt_of hin.1 hin.2
    have hrt : v.retT sigs = some (tab.fns v.last.toNat).rt :=
      retT_rep htab h.1 (by rw [h.1.fnum]; exact hat)
    rw [hrt]
    refine .known hat (.ite ?_ (.known rfl (.known (hq h) (.ok h))))
    rw [← bind_pure (v.popExpect _)]
    exact (popExpect_matches hE h).bind fun _ _ h' => .known (hq h') (.ok h')
  · have hnone : v.retT sigs = none := if_neg hin
    rw [hnone, fnAt_outside hin]
    exact .fail (hU hin)

theorem call_matches (h : RepAt p s v) :
    Matches E (RepAt p) (do
        require (0 ≤ n ∧ n < sigs.length)
        let fn ← tab.fnAt n
        let s ← popParams tab fn fn.paramN { s with fnum := n }
        if fn.rt ≠ 0 then pushT fn.rt s else .ok s)
      (do
        let f ← sigNum sigs n
        let v ← View.popList f.params.reverse { v with last := n }
        if f.rt ≠ 0 then v.push f.rt else some v) := by
  have hlen := htab.len
  have hsz : fnInfosSz = 64 := rfl
  refine require_matches hE decide_eq_true_iff (fun hn => ?_) fun hn => ?_
  · have hnone : sigNum sigs n = none := by
      unfold sigNum
      split
      · rfl
      · exact List.getElem?_eq_none (by omega)
    rw [hnone]
    rfl
  have hat : tab.fnAt n = .ok _ := fnAt_of hn.1 (by omega)
  obtain ⟨g, hg, hrep⟩ := callee_rep htab hn.1 hn.2 hat
  have hpop := popParams_matches hE htab hrep (Nat.le_of_eq hrep.params.1)
    ⟨h.1.setFnum n, ⟨h.2.1.mono, h.2.1.last, h.2.1.empty, h.2.1.begun⟩, h.2.2⟩
  rw [hrep.params.1, List.take_length] at hpop
  refine .known hat ?_
  rw [hg, hrep.rt, hrep.params.1]
  exact hpop.bind fun _ _ h' => .ite (pushT_matches hE h') (.ok h')

omit htab in
/-- Outside a function `push_frame` only counts. -/
theorem declfn_matches {r : Nat} {ps ls : List Ty} (h : Rep s v)
    (hps : getTypeList prog s.place = .ok (ps, q)) (hls : getTypeList prog q = .ok (ls, r)) :
    Matches E (RepAt r) (verifyCase prog tab sigs.length .declfn s) v.begin := by
  have hout : (!s.isInFn) = true ↔ v.hts = [] := by
    rw [Bool.not_eq_true', ← Bool.not_eq_true, h.isInFn, not_not]
  refine require_matches hE hout (fun hne => if_neg hne) fun hnil => ?_
  have hcur : s.curFrame = -1 := by
    rw [h.frame, hnil]
    rfl
  have hframe : pushFrame s = .ok { s with curFrame := 0 } := by
    refine bind_eq_ok.2 ⟨(), require_decide.2 (by omega), ?_⟩
    rw [if_neg (by omega), hcur]
    rfl
  have hv : v.begin = some { v with stk := [], hts := [0], fns := v.fns + 1 } := if_pos hnil
  rw [hv]
  refine .known hframe (.known (skipTypeList_of hps) (.known (skipTypeList_of hls) (.ok
    ⟨⟨rfl, rfl, fun j t hj => by simp at hj, ?_, fun j h hj => by simp at hj,
      h.bottom0, by simp, by simp, ?_, rfl, h.fnum⟩, View.Ok.begin hv, rfl⟩)))
  · intro j x hj
    rw [List.reverse_singleton] at hj
    rcases getElem?_snoc_inv (l := []) hj with ⟨hlt, -⟩ | ⟨rfl, rfl⟩
    · simp at hlt
    · exact h.bottom0
  · have := h.prev
    show s.prevFnNum + 1 = ((v.fns + 1 : Nat) : Int) - 1
    omega

/-- One case of the switch is one token of `check` and of the text behind
it. Only `fn_infos` may be left, by the number of a function. -/
theorem verifyCase_matches (hU : BadFn prog p v i → E .undefined) (h : Rep s v)
    (hok : v.Ok) (hnone : i.token.operand = .none → p = s.place)
    (hint : i.token.operand = .int → getInt prog s.place = .ok (i.arg, p))
    (htypes : i.token.operand = .types → ∃ q, getTypeList prog s.place = .ok (i.params, q)
      ∧ getTypeList prog q = .ok (i.locals, p)) :
    Matches E (RepAt p) (verifyCase prog tab sigs.length i.token.vcase s)
      (if i.token.needsEnd = true → prog[p]? = some endByte then check sigs v i else none) := by
  have hdecl : i.token.vcase ≠ .declfn → i.token.isDecl = false := by
    cases i.token <;> decide
  have hret : i.token.vcase = .ret → i.token = .ret := by
    cases i.token <;> decide
  have hout : i.token.vcase ≠ .declfn → v.hts = [] → check sigs v i = none := by
    intro hc hnil
    cases hv : check sigs v i with
    | none => rfl
    | some w => exact absurd hnil (check_inFn (hdecl hc) hv)
  have hin : ∀ {f : Unit → Res VState} {y : Option View}, (v.hts = [] → y = none) →
      (v.hts ≠ [] → Matches E (RepAt p) (f ()) y) →
        Matches E (RepAt p) (require s.isInFn >>= f) y :=
    fun hn hm => require_matches hE h.isInFn (fun hc => hn (not_not.1 hc)) hm
  rw [vcase_operand] at hnone hint htypes
  rw [vcase_needsEnd]
  have hat : RepAt p { s with place := p } v := ⟨h.place p, hok, rfl⟩
  have hself : p = s.place → RepAt p s v := fun hp => ⟨h, hok, hp.symm⟩
  have hlabel : ∀ {f : Unit → Res VState} {y : Option View}, (¬ v.labelOk i.arg.toInt → y = none) →
      (v.labelOk i.arg.toInt → Matches E (RepAt p) (f ()) y) →
        Matches E (RepAt p) (require (0 ≤ i.arg.toInt) >>= fun _ =>
          require (i.arg.toInt < s.curFrame) >>= f) y := by
    intro f y hn hm
    have hf := h.frame
    refine require_matches hE decide_eq_true_iff (fun h0 => hn fun hl => h0 hl.1) fun h0 => ?_
    exact require_matches hE decide_eq_true_iff
      (fun h1 => hn fun hl => h1 (by have := hl.2; omega)) fun h1 => hm ⟨h0, by omega⟩
  unfold check at hout ⊢
  cases hc : i.token.vcase <;> simp only [hc, Bool.false_eq_true, false_implies, if_true,
    forall_const] at hnone hint htypes hout hret ⊢
  case const => exact hin (hout nofun) fun _ => .known hint (pushT_matches hE hat)
  case unary =>
    exact hin (hout nofun) fun _ => (popExpect_matches hE (hself hnone)).bind
      fun _ _ => pushT_matches hE
  case binary =>
    exact hin (hout nofun) fun _ => (popExpect_matches hE (hself hnone)).bind
      fun _ _ h₁ => (popExpect_matches hE h₁).bind fun _ _ => pushT_matches hE
  case memsz => exact hin (hout nofun) fun _ => pushT_matches hE (hself hnone)
  case store =>
    exact hin (hout nofun) fun _ => (popT_matches hE (hself hnone)).bind
      fun _ _ h₁ => popExpect_matches hE h₁.2
  case trap =>
    refine hin (fun hn => by rw [hout nofun hn, ite_self]) fun hne => ?_
    rw [requireEnd_eq, ← hnone]
    refine require_matches hE decide_eq_true_iff (fun he => if_neg he) fun he => ?_
    rw [if_pos he, if_pos hne]
    exact .ok (hself hnone)
  case open_ =>
    exact hin (hout nofun) fun hne => pushFrame_matches hE (hself hnone) hne
  case ret =>
    refine hin (fun hn => by rw [hout nofun hn, ite_self]) fun hne => ?_
    rw [requireEnd_eq, ← hnone]
    refine require_matches hE decide_eq_true_iff (fun he => if_neg he) fun he => ?_
    rw [if_pos he, if_pos hne]
    exact ret_matches hE htab (fun hl => hU (.inl ⟨hret, hne, he, hl⟩)) (hself hnone) he
  case end_ => exact popFrame_matches hE (hself hnone)
  case getL =>
    refine hin (hout nofun) fun hne => .known hint ?_
    show Matches _ _ _ (v.sig sigs >>= fun g => g.localT i.arg.toInt >>= v.push)
    rw [← bind_assoc]
    exact (getLocalT_matches hE htab (fun hb => hU (.inr hb)) h (hok.begun hne)).bind
      fun _ _ ht => ht ▸ pushT_matches hE hat
  case call =>
    refine hin (hout nofun) fun hne => .known hint ?_
    rw [if_pos hne]
    exact call_matches hE htab hat
  case setL =>
    refine hin (hout nofun) fun hne => .known hint ((popT_matches hE hat).knows.bind
      fun r u hru => ?_)
    obtain ⟨⟨hty, hrep, -, hpl⟩, hpop⟩ := hru
    obtain ⟨-, -, -, -, -, hw⟩ := View.pop_inv hpop
    have hfns : u.2.fns = v.fns := by rw [hw]
    show Matches _ _ _ (u.2.sig sigs >>= fun g => g.localT i.arg.toInt >>= fun t' =>
      if u.1 = t' then some u.2 else none)
    rw [← bind_assoc]
    refine (getLocalT_matches hE htab (fun hb => hU (.inr (hfns ▸ hb))) hrep
      (hfns ▸ hok.begun hne)).bind fun t t' ht => ?_
    subst ht
    refine require_matches hE decide_eq_true_iff (fun hno => if_neg (hty ▸ hno)) fun heq => ?_
    rw [if_pos (hty.symm.trans heq)]
    exact .ok ⟨hrep, hok.pop hpop, hpl⟩
  case br =>
    refine hin (fun hn => by rw [hout nofun hn, ite_self]) fun _ => .known hint
      (hlabel (fun hl => by simp only [if_neg hl, ite_self]) fun hl => ?_)
    rw [requireEnd_eq]
    refine require_matches hE decide_eq_true_iff (fun he => if_neg he) fun he => ?_
    rw [if_pos he, if_pos hl]
    exact .ok hat
  case brIf =>
    refine hin (hout nofun) fun _ => .known hint (hlabel (fun hl => if_neg hl) fun hl => ?_)
    rw [if_pos hl]
    exact popExpect_matches hE hat
  case declfn =>
    obtain ⟨q, hps, hls⟩ := htypes
    exact declfn_matches hE h hps hls

theorem verifyStep_matches (hU : BadFn prog p v i → E .undefined) (h : Rep s v)
    (hok : v.Ok) (hi : instrAt prog s.place = .ok (i, p)) :
    Matches E (RepAt p) (verifyStep prog tab sigs.length s)
      (if i.token.needsEnd = true → prog[p]? = some endByte then check sigs v i else none) := by
  obtain ⟨b, hb, ht, hnone, hint, htypes⟩ := instrAt_inv hi
  unfold verifyStep
  simp only [hb, ht]
  exact verifyCase_matches hE htab hU (h.place _) hok hnone hint htypes

end Step

variable {s' : VState}

/-- One round of `verify` is one token of `check`. -/
theorem verifyStep_refines (htab : TableRep tab sigs) (hrep : Rep s v)
    (hok : v.Ok) (hi : instrAt prog s.place = .ok (i, p))
    (hs : verifyStep prog tab sigs.length s = .ok s') :
    s'.place = p ∧ (∃ v', check sigs v i = some v' ∧ Rep s' v')
      ∧ (i.token.needsEnd = true → prog[p]? = some endByte) := by
  obtain ⟨v', hv', hrep', -, hpl⟩ := (verifyStep_matches (E := fun _ => True) trivial htab
    (fun _ => trivial) hrep hok hi).of_ok hs
  obtain ⟨hend, hv'⟩ := Option.ite_none_right_eq_some.1 hv'
  exact ⟨hpl, ⟨v', hv', hrep'⟩, hend⟩

-- ======== whole runs

/-- Every token keeps a view well formed. -/
theorem View.Ok.check (hok : v.Ok) (h : Sume.check sigs v i = some v') : v'.Ok := by
  unfold Sume.check at h
  cases hc : i.token.vcase <;> simp only [hc] at h
  case const => exact hok.push h
  case memsz => exact hok.push h
  case unary =>
    obtain ⟨v1, h1, h⟩ := Option.bind_eq_some_iff.1 h
    exact (hok.pop (View.popExpect_inv h1)).push h
  case binary =>
    obtain ⟨v1, h1, h⟩ := Option.bind_eq_some_iff.1 h
    obtain ⟨v2, h2, h⟩ := Option.bind_eq_some_iff.1 h
    exact ((hok.pop (View.popExpect_inv h1)).pop (View.popExpect_inv h2)).push h
  case store =>
    obtain ⟨⟨t, v1⟩, h1, h⟩ := Option.bind_eq_some_iff.1 h
    exact (hok.pop h1).pop (View.popExpect_inv h)
  case trap =>
    split at h
    · cases h; exact hok
    · cases h
  case open_ => exact hok.enter h
  case ret =>
    split at h
    · obtain ⟨t, -, h⟩ := Option.bind_eq_some_iff.1 h
      split at h
      · exact hok.pop (View.popExpect_inv h)
      · cases h; exact hok
    · cases h
  case end_ => exact hok.leave h
  case getL =>
    obtain ⟨g, -, h⟩ := Option.bind_eq_some_iff.1 h
    obtain ⟨t, -, h⟩ := Option.bind_eq_some_iff.1 h
    exact hok.push h
  case call =>
    split at h
    case isFalse => cases h
    obtain ⟨f, -, h⟩ := Option.bind_eq_some_iff.1 h
    obtain ⟨v1, h1, h⟩ := Option.bind_eq_some_iff.1 h
    have hok1 : v1.Ok := View.Ok.popList (v := { v with last := i.arg.toInt })
        ⟨hok.mono, hok.last, hok.empty, hok.begun⟩ h1
    split at h
    · exact hok1.push h
    · cases h; exact hok1
  case setL =>
    obtain ⟨⟨t, v1⟩, h1, h⟩ := Option.bind_eq_some_iff.1 h
    obtain ⟨g, -, h⟩ := Option.bind_eq_some_iff.1 h
    obtain ⟨t', -, h⟩ := Option.bind_eq_some_iff.1 h
    split at h
    · cases h; exact hok.pop h1
    · cases h
  case br =>
    split at h
    · cases h; exact hok
    · cases h
  case brIf =>
    split at h
    · exact hok.pop (View.popExpect_inv h)
    · cases h
  case declfn => exact View.Ok.begin h

theorem checkAll_append {is js : List Instr} :
    checkAll sigs v (is ++ js) = checkAll sigs v is >>= (checkAll sigs · js) := by
  induction is generalizing v with
  | nil => rfl
  | cons i is ih =>
    show (Sume.check sigs v i >>= fun v' => checkAll sigs v' (is ++ js)) = _
    cases hc : Sume.check sigs v i with
    | none =>
      show none = (Sume.check sigs v i >>= fun v' => checkAll sigs v' is) >>= _
      rw [hc]
      rfl
    | some w =>
      show checkAll sigs w (is ++ js)
        = (Sume.check sigs v i >>= fun v' => checkAll sigs v' is) >>= _
      rw [hc, ih]
      rfl

/-- The view behind an instruction is the check of that instruction. -/
theorem viewAt_succ {slot : Int} {k : Nat} {v : View}
    {i : Instr} (hv : viewAt slot ts k = some v) (hi : ts[k]? = some i) :
    viewAt slot ts (k + 1) = check (sigsOf ts) v i := by
  unfold viewAt at hv ⊢
  rw [List.take_add_one, hi, checkAll_append, hv]
  show (check (sigsOf ts) v i >>= fun v' => some v') = _
  cases check (sigsOf ts) v i <;> rfl

/-- The view before the last one. -/
theorem viewAt_prev {slot : Int} {k : Nat} {v : View}
    {i : Instr} (hi : ts[k]? = some i) (hv : viewAt slot ts (k + 1) = some v) :
    ∃ v0, viewAt slot ts k = some v0 ∧ check (sigsOf ts) v0 i = some v := by
  cases hv0 : viewAt slot ts k with
  | none =>
    unfold viewAt at hv hv0
    rw [List.take_add_one, checkAll_append, hv0] at hv
    cases hv
  | some v0 =>
    rw [viewAt_succ hv0 hi] at hv
    exact ⟨v0, rfl, hv⟩

/-- The table and the instructions of a program `verify` accepts, with
the number of its rounds. -/
theorem accepts_inv {slot : Int} (h : Accepts prog slot) :
    ∃ pop ts n, populateFns prog FnTable.empty = .ok pop
      ∧ Scans prog 0 ts ∧ TableRep pop.tab (sigsOf ts)
      ∧ pop.fnNum = (sigsOf ts).length ∧ (pop.tab.fns 0).paramN = 0
      ∧ (∃ s, iterate (verifyStep prog pop.tab pop.fnNum) n
          (VState.init slot) = .ok s ∧ (prog.length ≤ s.place ∨ n = prog.length))
      ∧ ∀ j, j < n → ∀ t, iterate (verifyStep prog pop.tab pop.fnNum) j
          (VState.init slot) = .ok t → t.place < prog.length := by
  obtain ⟨s, hs⟩ := h
  unfold verify at hs
  obtain ⟨pop, hpop, hs⟩ := bind_eq_ok.1 hs
  obtain ⟨_, hreq, hs⟩ := bind_eq_ok.1 hs
  simp only [require_decide] at hreq
  obtain ⟨ts, hts, htab, hnum⟩ := populateFns_scans hpop
  obtain ⟨n, -, hit, hend, hin⟩ := whileLt_rounds hs
  exact ⟨pop, ts, n, hpop, hts, htab, hnum, hreq, ⟨s, hit, hend⟩, hin⟩

/-- The rounds of `verify` follow the instructions, and its variables
hold the view before each. -/
theorem iterate_refines {slot : Int} (hts : Scans prog 0 ts) (htab : TableRep tab (sigsOf ts)) :
    ∀ {k : Nat} {s : VState}, k ≤ ts.length →
      iterate (verifyStep prog tab (sigsOf ts).length) k (VState.init slot) = .ok s →
      ∃ v, viewAt slot ts k = some v ∧ Rep s v ∧ v.Ok ∧ Scans prog s.place (ts.drop k) := by
  intro k
  induction k with
  | zero =>
    intro s _ h
    cases h
    exact ⟨View.init slot, rfl, rep_init slot, View.ok_init slot, hts⟩
  | succ k ih =>
    intro s hk h
    obtain ⟨s0, h0⟩ := iterate_prefix h (Nat.le_succ k)
    obtain ⟨v, hv, hrep, hok, hsc⟩ := ih (by omega) h0
    have hget : ts[k]? = some ts[k] := List.getElem?_eq_getElem (by omega)
    rw [List.drop_eq_getElem_cons (by omega)] at hsc
    cases hsc with
    | cons hp hi hrest =>
      obtain ⟨hpl, ⟨v', hv', hrep'⟩, -⟩ :=
        verifyStep_refines htab hrep hok hi (iterate_step h0 h)
      refine ⟨v', ?_, hrep', hok.check hv', ?_⟩
      · rw [viewAt_succ hv hget]
        exact hv'
      · rw [hpl]
        exact hrest

-- ======== accepted programs

/-- What acceptance says about the instructions of a program. -/
structure Accepted (prog : List Byte) (slot : Int) (ts : List Instr) :
    Prop where
  decode : Sume.decode prog = .ok ts
  table : ∃ pop, populateFns prog FnTable.empty = .ok pop
    ∧ TableRep pop.tab (sigsOf ts) ∧ pop.fnNum = (sigsOf ts).length
  scan : ∀ k s, k ≤ ts.length → verifyAt prog slot k = .ok s →
    Scans prog s.place (ts.drop k)
  view : ∀ k, k ≤ ts.length → ∃ s v, verifyAt prog slot k = .ok s
    ∧ viewAt slot ts k = some v ∧ Rep s v ∧ v.Ok
  ends : ∀ k i, ts[k]? = some i → i.token.needsEnd = true →
    ∃ j, ts[k + 1]? = some j ∧ j.token = .end_
  main : ∀ g, (sigsOf ts)[0]? = some g → g.params = []
  fns : (sigsOf ts).length ≤ 64

/-- A program `verify` accepts has instructions, and the scan passes a
view before each of them. -/
theorem Accepts.accepted {slot : Int} (h : Accepts prog slot) : ∃ ts, Accepted prog slot ts := by
  obtain ⟨pop, ts, n, hpop, hts, htab, hnum, hmain, ⟨s, hs, hend⟩, hin⟩ := accepts_inv h
  rw [hnum] at hs hin
  -- the rounds of the loop are the instructions
  have hge : ts.length ≤ n := by
    by_contra hlt
    obtain ⟨v, -, -, -, hsc⟩ := iterate_refines hts htab (by omega) hs
    rw [List.drop_eq_getElem_cons (by omega)] at hsc
    cases hsc with
    | cons hp _ _ =>
      have := hts.length_le
      rcases this with rfl | this
      · simp at hlt
      · rcases hend with hend | hend <;> omega
  have hstate : ∀ k, k ≤ ts.length → ∃ s, iterate (verifyStep prog pop.tab (sigsOf ts).length) k
        (VState.init slot) = .ok s := fun k hk => iterate_prefix hs (by omega)
  have hat : ∀ k, verifyAt prog slot k = iterate (verifyStep prog pop.tab (sigsOf ts).length) k
        (VState.init slot) := by
    intro k
    unfold verifyAt
    rw [hpop]
    show iterate (verifyStep prog pop.tab pop.fnNum) k _ = _
    rw [hnum]
  refine ⟨ts, hts.decode, ⟨pop, hpop, htab, hnum⟩, fun k s hk hs => ?_,
    fun k hk => ?_, fun k i hi hne => ?_, fun g hg => ?_, htab.len⟩
  · rw [hat] at hs
    obtain ⟨-, -, -, -, hsc⟩ := iterate_refines hts htab hk hs
    exact hsc
  · obtain ⟨sk, hsk⟩ := hstate k hk
    obtain ⟨v, hv, hrep, hok, -⟩ := iterate_refines hts htab hk hsk
    exact ⟨sk, v, (hat k).trans hsk, hv, hrep, hok⟩
  · have hk : k < ts.length := lt_length hi
    obtain ⟨sk, hsk⟩ := hstate k (by omega)
    obtain ⟨sk', hsk'⟩ := hstate (k + 1) (by omega)
    obtain ⟨v, -, hrep, hok, hsc⟩ := iterate_refines hts htab (by omega) hsk
    rw [List.drop_eq_getElem_cons hk] at hsc
    rw [List.getElem?_eq_getElem hk] at hi
    cases hi
    cases hsc with
    | cons hp hi hrest =>
      obtain ⟨-, -, hb⟩ := verifyStep_refines htab hrep hok hi (iterate_step hsk hsk')
      have hb := hb hne
      -- the byte found there is an instruction of its own
      cases hd : ts.drop (k + 1) with
      | nil =>
        rw [hd] at hrest
        cases hrest with
        | nil hge' =>
          rw [List.getElem?_eq_none hge'] at hb
          cases hb
      | cons j js =>
        rw [hd] at hrest
        cases hrest with
        | cons _ hj _ =>
          obtain ⟨b, hb', ht, -⟩ := instrAt_inv hj
          rw [hb] at hb'
          cases hb'
          refine ⟨j, ?_, ?_⟩
          · have h0 : (ts.drop (k + 1))[0]? = some j := by
              rw [hd]
              rfl
            rwa [List.getElem?_drop, Nat.add_zero] at h0
          · have := ofByte_eq_end.2 (rfl : endByte = endByte)
            rw [ht] at this
            exact Option.some.inj this
  · have := (htab.fn 0 g hg).params.1
    rw [hmain] at this
    exact List.eq_nil_of_length_eq_zero this.symm

/-- The instructions of an accepted program are the decoded ones. -/
theorem Accepts.accepted_decode {slot : Int}
    (h : Accepts prog slot) (hd : Sume.decode prog = .ok ts) : Accepted prog slot ts := by
  obtain ⟨us, hus⟩ := h.accepted
  have := hus.decode
  rw [hd] at this
  cases this
  exact hus

/-- The whole program scans to its instructions. -/
theorem Accepted.scans {slot : Int} (h : Accepted prog slot ts) : Scans prog 0 ts := by
  obtain ⟨s, -, hs, -⟩ := h.view 0 (Nat.zero_le _)
  have hscan := h.scan 0 s (Nat.zero_le _) hs
  obtain ⟨pop, -, hs⟩ := bind_eq_ok.1 hs
  cases hs
  exact hscan

end Xv6Sume32.Sume
