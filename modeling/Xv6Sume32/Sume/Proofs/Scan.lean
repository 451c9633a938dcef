/-
The passes read the program the way `decode` does.

`Scans prog p ts` says that from place `p` to the end the program is
the instructions `ts`. A successful `populate_fns` yields such a list
(`populateFns_scans`), the list is `decode`'s, and the function table it
leaves represents the declared signatures (`TableRep`): entry `k` holds
the result type of function `k` and points to copies of its two type
lists in the heap, which later declarations do not overwrite because
they are appended behind it.
-/
import Xv6Sume32.Lib.Outcome
import Xv6Sume32.Sume.Check

namespace Xv6Sume32.Sume

open Lib

variable {prog : List Byte}

-- ======== places move on

theorem getInt_inv {p p' : Nat} {v : Word} (h : getInt prog p = .ok (v, p')) : p' = p + 4 := by
  unfold getInt at h
  split at h
  · cases h
  · cases h
    rfl

theorem getTypeListLoop_advances {place : Nat} : ∀ {fuel pos : Nat} {acc ts : List Ty} {p : Nat},
      getTypeListLoop prog place fuel pos acc = .ok (ts, p) → place < p := by
  intro fuel
  induction fuel with
  | zero => intro pos acc ts p h; cases h
  | succ fuel ih =>
    intro pos acc ts p h
    unfold getTypeListLoop at h
    split at h
    · cases h
    · split at h
      · cases h
        omega
      · obtain ⟨-, -, h⟩ := bind_eq_ok.1 h
        exact ih h

theorem getTypeList_advances {place p : Nat} {ts : List Ty}
    (h : getTypeList prog place = .ok (ts, p)) : place < p :=
  getTypeListLoop_advances h

/-- The place behind an instruction is further on. -/
theorem instrAt_advances {p p' : Nat} {i : Instr} (h : instrAt prog p = .ok (i, p')) : p < p' := by
  unfold instrAt at h
  split at h
  · cases h
  · split at h
    · cases h
    · split at h
      · cases h
        omega
      · obtain ⟨⟨v, q⟩, hv, h⟩ := bind_eq_ok.1 h
        have := getInt_inv hv
        cases h
        omega
      · obtain ⟨⟨ps, q⟩, hp, h⟩ := bind_eq_ok.1 h
        obtain ⟨⟨ls, r⟩, hl, h⟩ := bind_eq_ok.1 h
        have h1 := getTypeList_advances hp
        have h2 := getTypeList_advances hl
        cases h
        omega

-- ======== scans

/-- From place `p` to its end the program is the instructions `ts`. -/
inductive Scans (prog : List Byte) : Nat → List Instr → Prop
  | nil {p} (h : prog.length ≤ p) : Scans prog p []
  | cons {p p' i is} (hp : p < prog.length)
      (hi : instrAt prog p = .ok (i, p')) (his : Scans prog p' is) :
      Scans prog p (i :: is)

variable {p p' k n : Nat} {ts : List Instr} {i : Instr} {tab tab' : FnTable} {fn : FnInfo} {g : Sig}
    {sigs : List Sig} {s : PopState}

/-- The instructions of a program are unique. -/
theorem Scans.unique {us : List Instr} (h : Scans prog p ts) (h' : Scans prog p us) : ts = us := by
  induction h generalizing us with
  | nil hp =>
    cases h' with
    | nil _ => rfl
    | cons hlt _ _ => omega
  | cons hp hi _ ih =>
    cases h' with
    | nil hge => omega
    | cons _ hi' his' =>
      rw [hi] at hi'
      cases hi'
      rw [ih his']

/-- A scan is what `decodeFrom` computes, given the fuel. -/
theorem Scans.decodeFrom (h : Scans prog p ts) :
    ∀ {fuel : Nat}, prog.length ≤ p + fuel → Sume.decodeFrom prog fuel p = .ok ts := by
  induction h with
  | nil hp =>
    intro fuel _
    cases fuel with
    | zero => rfl
    | succ fuel =>
      unfold Sume.decodeFrom
      rw [if_neg (by omega)]
  | cons hp hi _ ih =>
    intro fuel hf
    cases fuel with
    | zero => omega
    | succ fuel =>
      have hadv := instrAt_advances hi
      unfold Sume.decodeFrom
      rw [if_pos hp, hi]
      show (Sume.decodeFrom prog fuel _ >>= _) = _
      rw [ih (by omega)]
      rfl

theorem Scans.decode (h : Scans prog 0 ts) : Sume.decode prog = .ok ts :=
  h.decodeFrom (by omega)

theorem Scans.head (h : Scans prog p (ts.drop k)) (hi : ts[k]? = some i) :
    p < prog.length ∧ ∃ q, instrAt prog p = .ok (i, q) ∧ Scans prog q (ts.drop (k + 1)) := by
  obtain ⟨hk, rfl⟩ := List.getElem?_eq_some_iff.1 hi
  rw [List.drop_eq_getElem_cons hk] at h
  cases h with
  | cons hp hi his => exact ⟨hp, _, hi, his⟩

/-- Every instruction takes at least a byte. -/
theorem Scans.length_le (h : Scans prog p ts) : ts = [] ∨ p + ts.length ≤ prog.length := by
  induction h with
  | nil _ => exact Or.inl rfl
  | cons hp hi _ ih =>
    have hadv := instrAt_advances hi
    refine Or.inr ?_
    rw [List.length_cons]
    rcases ih with rfl | ih
    · rw [List.length_nil]
      omega
    · omega

/-- A program has no more instructions than bytes. -/
theorem Scans.fuel (h : Scans prog 0 ts) : ts.length ≤ prog.length := by
  rcases h.length_le with rfl | hle
  · exact Nat.zero_le _
  · omega

/-- A loop that reads one instruction a round makes one round for each
instruction, and an invariant its rounds carry holds at every one. -/
theorem whileLt_tokens {σ : Type} {place : σ → Nat} {body : σ → Res σ} {Inv : Nat → σ → Prop}
    {s s' : σ} {fuel : Nat}
    (hscan : ∀ k t, Inv k t → Scans prog (place t) (ts.drop k))
    (hstep : ∀ k t t' i, Inv k t → ts[k]? = some i → body t = .ok t' → Inv (k + 1) t')
    (h0 : Inv 0 s) (hfuel : ts.length ≤ fuel) (h : whileLt prog.length place body fuel s = .ok s') :
    iterate body ts.length s = .ok s'
      ∧ ∀ k, k ≤ ts.length → ∃ t, iterate body k s = .ok t ∧ Inv k t := by
  obtain ⟨n, -, hit, hend, hin⟩ := whileLt_rounds h
  -- inside the loop a round always finds an instruction
  have hinv : ∀ k, k ≤ n → ∃ t, iterate body k s = .ok t ∧ Inv k t ∧ k ≤ ts.length := by
    intro k
    induction k with
    | zero => exact fun _ => ⟨s, rfl, h0, Nat.zero_le _⟩
    | succ k ih =>
      intro hk
      obtain ⟨t, ht, hi, -⟩ := ih (by omega)
      have hlt := hin k (by omega) t ht
      obtain ⟨t', ht'⟩ := iterate_prefix hit hk
      have hkt : k < ts.length := by
        by_contra hge
        have hsc := hscan k t hi
        rw [List.drop_eq_nil_of_le (by omega)] at hsc
        cases hsc with
        | nil hp => omega
      exact ⟨t', ht', hstep k t t' _ hi (List.getElem?_eq_getElem hkt) (iterate_step ht ht'), hkt⟩
  obtain ⟨t, ht, hi, hle⟩ := hinv n (Nat.le_refl n)
  obtain rfl : s' = t := Except.ok.inj (hit.symm.trans ht)
  have hn : n = ts.length := by
    by_contra hne
    have hsc := hscan n s' hi
    rw [List.drop_eq_getElem_cons (by omega)] at hsc
    cases hsc with
    | cons hp _ _ => rcases hend with hend | hend <;> omega
  rw [← hn]
  refine ⟨hit, fun k hk => ?_⟩
  obtain ⟨t, ht, hi, -⟩ := hinv k hk
  exact ⟨t, ht, hi⟩

/-- Such a loop ends the way its rounds do. -/
theorem whileLt_tokens_ends {σ : Type} {place : σ → Nat} {body : σ → Res σ} {Inv : Nat → σ → Prop}
    {E : Stop → Prop} {s : σ} {fuel : Nat}
    (hscan : ∀ k t, Inv k t → Scans prog (place t) (ts.drop k))
    (hstep : ∀ k t i, Inv k t → ts[k]? = some i → Outcome E (Inv (k + 1)) (body t))
    (h0 : Inv 0 s) (hfuel : ts.length ≤ fuel) :
    Outcome E (Inv ts.length) (whileLt prog.length place body fuel s) := by
  suffices H : ∀ fuel k s, Inv k s → k ≤ ts.length → ts.length ≤ k + fuel →
      Outcome E (Inv ts.length) (whileLt prog.length place body fuel s) from
    H fuel 0 s h0 (Nat.zero_le _) (by omega)
  intro fuel
  induction fuel with
  | zero =>
    intro k s hs hk hfuel
    obtain rfl : k = ts.length := by omega
    exact hs
  | succ fuel ih =>
    intro k s hs hk hfuel
    have hsc := hscan k s hs
    unfold whileLt
    by_cases hlt : k < ts.length
    · have hi := List.getElem?_eq_getElem hlt
      rw [if_pos (hsc.head hi).1]
      exact (hstep k s _ hs hi).bind fun t ht => ih (k + 1) t ht hlt (by omega)
    · obtain rfl : k = ts.length := by omega
      rw [List.drop_length] at hsc
      cases hsc with
      | nil hp =>
        rw [if_neg (by omega)]
        exact hs

/-- Such a loop finishes when every round inside it does. -/
theorem whileLt_tokens_ok {σ : Type} {place : σ → Nat} {body : σ → Res σ} {Inv : Nat → σ → Prop}
    {s : σ} {fuel : Nat}
    (hscan : ∀ k t, Inv k t → Scans prog (place t) (ts.drop k))
    (hstep : ∀ k t i, Inv k t → ts[k]? = some i → ∃ t', body t = .ok t' ∧ Inv (k + 1) t')
    (h0 : Inv 0 s) (hfuel : ts.length ≤ fuel) :
    ∃ s', whileLt prog.length place body fuel s = .ok s' ∧ Inv ts.length s' := by
  have hends : ∀ k t i, Inv k t → ts[k]? = some i →
      Outcome (fun _ => False) (Inv (k + 1)) (body t) := by
    intro k t i ht hi
    obtain ⟨t', ht', hi'⟩ := hstep k t i ht hi
    rw [ht']
    exact hi'
  have h := whileLt_tokens_ends hscan hends h0 hfuel
  match hw : whileLt prog.length place body fuel s with
  | .ok s' => exact ⟨s', rfl, h.of_ok hw⟩
  | .error e =>
    rw [hw] at h
    exact h.elim

-- ======== the function table

/-- A pointer of the table leads to a copy of a type list. -/
def ListRep (tab : FnTable) (ptr : Option Nat) (n : Nat) (ts : List Ty) :
    Prop :=
  n = ts.length ∧ ∃ off, ptr = some off ∧ off + ts.length ≤ tab.heapPos
    ∧ ∀ i (h : i < ts.length), tab.heap (off + i) = ts[i]

/-- A table entry represents a declared function. -/
structure FnRep (tab : FnTable) (fn : FnInfo) (g : Sig) : Prop where
  rt : fn.rt = g.rt
  params : ListRep tab fn.paramT fn.paramN g.params
  locals : ListRep tab fn.localT fn.localN g.locals

/-- The function table represents the declared functions: their entries
in order, the others still zero. -/
structure TableRep (tab : FnTable) (sigs : List Sig) : Prop where
  fn : ∀ k g, sigs[k]? = some g → FnRep tab (tab.fns k) g
  zero : ∀ k, sigs.length ≤ k → tab.fns k = FnInfo.zero
  len : sigs.length ≤ fnInfosSz
  heap : tab.heapPos ≤ heapSz

theorem tableRep_empty : TableRep FnTable.empty [] :=
  ⟨fun k g h => by simp at h, fun _ _ => rfl, by simp, by simp [FnTable.empty]⟩

/-- What appending a type list to the heap does. -/
theorem append_inv {ts : List Ty} (h : tab.append ts = .ok tab') :
    tab'.fns = tab.fns ∧ tab'.heapPos = tab.heapPos + ts.length
      ∧ (ts.length = 0 ∨ tab'.heapPos ≤ heapSz) ∧ (∀ j, j < tab.heapPos → tab'.heap j = tab.heap j)
      ∧ ∀ i (hi : i < ts.length), tab'.heap (tab.heapPos + i) = ts[i] := by
  unfold FnTable.append at h
  obtain ⟨_, hr, h⟩ := bind_eq_ok.1 h
  cases h
  simp only [inRange_decide] at hr
  refine ⟨rfl, rfl, hr, fun j hj => ?_, fun i hi => ?_⟩
  · exact if_neg (by omega)
  · show (if tab.heapPos ≤ tab.heapPos + i
      ∧ tab.heapPos + i < tab.heapPos + ts.length then _ else _) = _
    rw [if_pos (by omega), Nat.add_sub_cancel_left,
      List.getD_eq_getElem?_getD, List.getElem?_eq_getElem hi]
    rfl

/-- A recorded list stays recorded when the heap only grows. -/
theorem ListRep.grow {ptr : Option Nat}
    {ts : List Ty} (h : ListRep tab ptr n ts) (hpos : tab.heapPos ≤ tab'.heapPos)
    (hheap : ∀ j, j < tab.heapPos → tab'.heap j = tab.heap j) : ListRep tab' ptr n ts := by
  obtain ⟨hn, off, hoff, hle, hget⟩ := h
  refine ⟨hn, off, hoff, by omega, fun i hi => ?_⟩
  rw [hheap _ (by omega)]
  exact hget i hi

theorem FnRep.grow (h : FnRep tab fn g) (hpos : tab.heapPos ≤ tab'.heapPos)
    (hheap : ∀ j, j < tab.heapPos → tab'.heap j = tab.heap j) : FnRep tab' fn g :=
  ⟨h.rt, h.params.grow hpos hheap, h.locals.grow hpos hheap⟩

/-- Entry `k` becomes `fn`, with a list at the end of the heap. -/
structure Recorded (tab tab' : FnTable) (k : Nat) (fn : FnInfo) (ts : List Ty) : Prop where
  list : ListRep tab' (some tab.heapPos) ts.length ts
  here : tab'.fns k = fn
  there : ∀ j, j ≠ k → tab'.fns j = tab.fns j
  pos : tab.heapPos ≤ tab'.heapPos
  size : tab.heapPos ≤ heapSz → tab'.heapPos ≤ heapSz
  low : ∀ j, j < tab.heapPos → tab'.heap j = tab.heap j

theorem append_recorded {ts : List Ty}
    (h : (tab.setFn k fn).append ts = .ok tab') : Recorded tab tab' k fn ts := by
  obtain ⟨hfns, hpos, hsz, hlow, hnew⟩ := append_inv h
  refine ⟨⟨rfl, tab.heapPos, rfl, Nat.le_of_eq hpos.symm, hnew⟩, ?_, fun j hj => ?_,
    hpos.symm ▸ Nat.le_add_right _ _, fun hle => ?_, hlow⟩
  · rw [hfns]
    exact if_pos rfl
  · rw [hfns]
    exact if_neg hj
  · rcases hsz with h0 | h0
    · rw [hpos, h0]
      exact hle
    · exact h0

/-- Recording a parameter list in a free entry. -/
theorem addFnParams_inv {ts : List Ty}
    (hfree : (tab.fns k).paramT = none) (h : addFnParams tab k ts = .ok tab') : Recorded tab tab' k
      { tab.fns k with paramT := some tab.heapPos, paramN := ts.length } ts := by
  unfold addFnParams at h
  rw [hfree] at h
  exact append_recorded h

/-- Recording a local list in a free entry. -/
theorem addFnLocals_inv {ts : List Ty}
    (hfree : (tab.fns k).localT = none) (h : addFnLocals tab k ts = .ok tab') : Recorded tab tab' k
      { tab.fns k with localT := some tab.heapPos, localN := ts.length } ts := by
  unfold addFnLocals at h
  rw [hfree] at h
  exact append_recorded h

/-- Declaring one more function extends the representation. -/
theorem TableRep.declare {tab1 tab2 : FnTable} (h : TableRep tab sigs)
    (hlen : sigs.length < fnInfosSz)
    (h1 : addFnParams (tab.setFn sigs.length
      { tab.fns sigs.length with rt := g.rt }) sigs.length g.params = .ok tab1)
    (h2 : addFnLocals tab1 sigs.length g.locals = .ok tab2) : TableRep tab2 (sigs ++ [g]) := by
  have hz := h.zero sigs.length (Nat.le_refl _)
  have hset : (tab.setFn sigs.length { tab.fns sigs.length with rt := g.rt }).fns sigs.length
        = { FnInfo.zero with rt := g.rt } := by
    rw [← hz]
    exact if_pos rfl
  have hp := addFnParams_inv (by rw [hset]; rfl) h1
  have hl := addFnLocals_inv (by rw [hp.here, hset]; rfl) h2
  have hold : ∀ j, j ≠ sigs.length → tab2.fns j = tab.fns j := by
    intro j hj
    rw [hl.there j hj, hp.there j hj]
    exact if_neg hj
  have hheap : ∀ j, j < tab.heapPos → tab2.heap j = tab.heap j := by
    intro j hj
    rw [hl.low j (Nat.lt_of_lt_of_le hj hp.pos), hp.low j hj]
    rfl
  have hgrow : tab.heapPos ≤ tab2.heapPos := Nat.le_trans hp.pos hl.pos
  refine ⟨fun k g' hk => ?_, fun k hk => ?_, ?_, hl.size (hp.size h.heap)⟩
  · by_cases hkl : k < sigs.length
    · rw [List.getElem?_append_left hkl] at hk
      rw [hold k (by omega)]
      exact (h.fn k g' hk).grow hgrow hheap
    · have hklen : k < (sigs ++ [g]).length := by
        by_contra hge
        rw [List.getElem?_eq_none (by omega)] at hk
        cases hk
      rw [List.length_append, List.length_singleton] at hklen
      obtain rfl : k = sigs.length := by omega
      rw [List.getElem?_append_right (Nat.le_refl _), Nat.sub_self] at hk
      cases hk
      rw [hl.here, hp.here, hset]
      exact ⟨rfl, hp.list.grow hl.pos hl.low, hl.list⟩
  · rw [List.length_append, List.length_singleton] at hk
    rw [hold k (by omega)]
    exact h.zero k (by omega)
  · rw [List.length_append, List.length_singleton]
    omega

-- ======== populate_fns

/-- The declared functions of an instruction, at most one. -/
theorem sigsOf_cons (i : Instr) (is : List Instr) : sigsOf (i :: is) = (if i.token.isDecl
      then [⟨i.token.declRt, i.params, i.locals⟩] else []) ++ sigsOf is := by
  unfold sigsOf
  by_cases h : i.token.isDecl <;> simp [h]

theorem sigsOf_append (is js : List Instr) : sigsOf (is ++ js) = sigsOf is ++ sigsOf js := by
  unfold sigsOf
  rw [List.filter_append, List.map_append]

/-- Tokens with type lists are the declarations. -/
theorem operand_types (t : Token) : t.operand = .types ↔ t.isDecl = true := by
  cases t <;> decide

/-- One round of `populate_fns` reads one instruction, and extends the
table by the function it declares. -/
theorem populateStep_inv {s' : PopState} (h : populateStep prog s = .ok s') :
    ∃ i, instrAt prog s.place = .ok (i, s'.place) ∧ ∀ {sigs : List Sig}, TableRep s.tab sigs →
      s.fnNum = sigs.length → TableRep s'.tab (sigs ++ sigsOf [i])
        ∧ s'.fnNum = (sigs ++ sigsOf [i]).length := by
  unfold populateStep at h
  split at h
  · cases h
  · next b hb =>
    split at h
    · cases h
    · next t ht =>
      -- what `sigsOf` says of an instruction that declares nothing
      have hplain : ∀ i : Instr, i.token = t → t.operand ≠ .types → sigsOf [i] = [] := by
        intro i hit hne
        rw [sigsOf_cons, hit, if_neg]
        · rfl
        · intro hd
          exact hne ((operand_types t).2 hd)
      split at h
      · next hop =>
        cases h
        refine ⟨{ token := t }, ?_, fun hrep hnum => ?_⟩
        · unfold instrAt
          simp only [hb, ht, hop]
        · rw [hplain _ rfl (by rw [hop]; decide), List.append_nil]
          exact ⟨hrep, hnum⟩
      · next hop =>
        obtain ⟨⟨v, p⟩, hv, h⟩ := bind_eq_ok.1 h
        cases h
        refine ⟨{ token := t, arg := v }, ?_, fun hrep hnum => ?_⟩
        · unfold instrAt
          simp only [hb, ht, hop, hv]
          rfl
        · rw [hplain _ rfl (by rw [hop]; decide), List.append_nil]
          exact ⟨hrep, hnum⟩
      · next hop =>
        unfold addFn at h
        obtain ⟨_, hr, h⟩ := bind_eq_ok.1 h
        obtain ⟨⟨ps, p⟩, hp, h⟩ := bind_eq_ok.1 h
        obtain ⟨tab1, ha, h⟩ := bind_eq_ok.1 h
        obtain ⟨⟨ls, q⟩, hl, h⟩ := bind_eq_ok.1 h
        obtain ⟨tab2, hb2, h⟩ := bind_eq_ok.1 h
        cases h
        simp only [inRange_decide] at hr
        have hsig : sigsOf [({ token := t, params := ps, locals := ls } : Instr)]
            = [⟨t.declRt, ps, ls⟩] := by
          rw [sigsOf_cons, if_pos ((operand_types t).1 hop)]
          rfl
        refine ⟨{ token := t, params := ps, locals := ls }, ?_, fun hrep hnum => ⟨?_, ?_⟩⟩
        · unfold instrAt
          simp only [hb, ht, hop]
          show (getTypeList prog (s.place + 1) >>= _) = _
          rw [hp]
          show (getTypeList prog p >>= _) = _
          rw [hl]
          rfl
        · rw [hsig]
          refine TableRep.declare (g := ⟨t.declRt, ps, ls⟩) hrep (hnum ▸ hr) ?_ (hnum ▸ hb2)
          rw [← hnum]
          exact ha
        · rw [hsig, List.length_append, List.length_singleton]
          show s.fnNum + 1 = _
          rw [hnum]

/-- The rounds of `populate_fns` read instructions one after the
other. -/
theorem populate_iterate : ∀ {s s' : PopState} {sigs : List Sig}, TableRep s.tab sigs →
      s.fnNum = sigs.length → iterate (populateStep prog) n s = .ok s' → prog.length ≤ s'.place →
      (∀ j, j < n → ∀ t, iterate (populateStep prog) j s = .ok t → t.place < prog.length) →
      ∃ ts, Scans prog s.place ts ∧ TableRep s'.tab (sigs ++ sigsOf ts)
        ∧ s'.fnNum = (sigs ++ sigsOf ts).length := by
  induction n with
  | zero =>
    intro s s' sigs hrep hnum hit hend _
    cases hit
    refine ⟨[], .nil hend, ?_⟩
    rw [show sigsOf [] = [] from rfl, List.append_nil]
    exact ⟨hrep, hnum⟩
  | succ n ih =>
    intro s s' sigs hrep hnum hit hend hin
    rw [iterate_succ] at hit
    obtain ⟨t, ht, hit⟩ := bind_eq_ok.1 hit
    obtain ⟨i, hi, hstep⟩ := populateStep_inv ht
    obtain ⟨hrep', hnum'⟩ := hstep hrep hnum
    obtain ⟨ts, hts, hfin, hfnum⟩ := ih hrep' hnum' hit hend
      fun j hj u hu => hin (j + 1) (by omega) u (iterate_cons ht hu)
    have happ : sigs ++ sigsOf (i :: ts) = sigs ++ sigsOf [i] ++ sigsOf ts := by
      rw [List.append_assoc, ← sigsOf_append]
      rfl
    refine ⟨i :: ts, .cons (hin 0 (by omega) s rfl) hi hts, ?_, ?_⟩
    · rw [happ]
      exact hfin
    · rw [happ]
      exact hfnum

theorem populateStep_advances {t : PopState} (h : populateStep prog s = .ok t) :
    s.place < t.place := by
  obtain ⟨i, hi, -⟩ := populateStep_inv h
  exact instrAt_advances hi

/-- A successful `populate_fns` has read the whole program and left a
table that represents its declarations. -/
theorem populateFns_scans {pop : PopState} (h : populateFns prog FnTable.empty = .ok pop) :
    ∃ ts, Scans prog 0 ts ∧ TableRep pop.tab (sigsOf ts) ∧ pop.fnNum = (sigsOf ts).length := by
  obtain ⟨n, hit, hend, hin⟩ := whileLt_complete (fun _ _ => populateStep_advances) h
  exact populate_iterate tableRep_empty rfl hit hend hin

end Xv6Sume32.Sume
