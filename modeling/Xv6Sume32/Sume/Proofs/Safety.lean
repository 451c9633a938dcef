/-
When `verify` stays inside its tables.

`populate_fns` takes the counts it fills its tables with from the program
text: a declaration beyond the 64th, a type list of more than 64 codes or
more than 4096 types in all are stored outside. The loop of `verify`
guards its two stacks, but a `ret` in front of the first `call` reads
`fn_infos` at an index nobody has set.

# Declarations met

What the tables have to hold is read off the text by a reader without
tables (`typesAt`, `met`): the declarations a left-to-right reading meets
before it finds an unknown token or an operand that is cut off, the last
of them perhaps cut off itself (`Met`).
-/
import Xv6Sume32.Sume.Proofs.Returns

namespace Xv6Sume32.Sume

open Lib

variable {n h q k : Nat}

-- ======== the type lists

section Text

variable (prog : List Byte)

/-- The nonzero codes at `place` from code `pos` on, with `n` codes left
in the program. -/
def typesFrom (place : Nat) : Nat → Nat → List Ty
  | 0, _ => []
  | n + 1, pos =>
      match typeCode prog place pos with
      | none => []
      | some t => if t = 0 then [] else t :: typesFrom place n (pos + 1)

/-- The number of two-bit codes from `place` to the end of the program. -/
def codesLeft (place : Nat) : Nat := 4 * (prog.length - place)

/-- The type list at `place`, to its end or that of the program. -/
def typesAt (place : Nat) : List Ty := typesFrom prog place (codesLeft prog place) 0

/-- Where the type list at `place` ends, if it does. -/
def typesEnd (place : Nat) : Option Nat :=
  if (typesAt prog place).length < codesLeft prog place then
    some (place + ((typesAt prog place).length / 4 + 1))
  else none

/-- A declaration token met in the text: its type lists as far as they
are there. -/
structure Met where
  params : List Ty
  locals : Option (List Ty)
  closed : Bool

/-- The types of a declaration that are stored. -/
def Met.stored (m : Met) : Nat :=
  match m.locals with
  | none => 0
  | some ls => m.params.length + if m.closed then ls.length else 0

/-- The declaration whose token stands in front of `place`, and where it
ends. -/
def metAt (place : Nat) : Met × Option Nat :=
  match typesEnd prog place with
  | none => (⟨typesAt prog place, none, false⟩, none)
  | some q =>
      match typesEnd prog q with
      | none => (⟨typesAt prog place, some (typesAt prog q), false⟩, none)
      | some r => (⟨typesAt prog place, some (typesAt prog q), true⟩, some r)

/-- The declarations a reading from `place` meets in some number of
tokens. -/
def metFrom : Nat → Nat → List Met
  | 0, _ => []
  | n + 1, place =>
      match prog[place]? with
      | none => []
      | some b =>
          match Token.ofByte b with
          | none => []
          | some t =>
              match t.operand with
              | .none => metFrom n (place + 1)
              | .int => if place + 1 + 4 < prog.length then metFrom n (place + 5) else []
              | .types =>
                  (metAt prog (place + 1)).1
                    :: (metAt prog (place + 1)).2.elim [] (metFrom n)

/-- The declarations of a program text. -/
def met : List Met := metFrom prog prog.length 0

end Text

variable {m : Met} {ms : List Met}

/-- There is room for declarations behind `fns` functions with `types`
types. -/
structure Room (fns types : Nat) (ms : List Met) : Prop where
  decls : fns + ms.length ≤ 64
  params : ∀ m ∈ ms, m.params.length ≤ 64
  locals : ∀ m ∈ ms, ∀ ls, m.locals = some ls → ls.length ≤ 64
  types : types + (ms.map Met.stored).sum ≤ 4096

variable {prog : List Byte}

theorem typeCode_none {place pos : Nat} :
    typeCode prog place pos = none ↔ codesLeft prog place ≤ pos := by
  unfold typeCode codesLeft
  rw [Option.map_eq_none_iff, List.getElem?_eq_none_iff]
  omega

/-- What the loop of `get_type_list` does, from any code on. -/
theorem getTypeListLoop_eq {place : Nat} :
    ∀ {fuel pos n : Nat} {acc : List Ty}, pos + fuel = typeBufSz + 1 →
      n = codesLeft prog place - pos →
      getTypeListLoop prog place fuel pos acc
        = if 64 < pos + (typesFrom prog place n pos).length then .error .undefined
          else if pos + (typesFrom prog place n pos).length < codesLeft prog place then
            .ok (acc ++ typesFrom prog place n pos,
              place + ((pos + (typesFrom prog place n pos).length) / 4 + 1))
          else .error .reject := by
  intro fuel
  induction fuel with
  | zero =>
    intro pos n acc hfuel _
    unfold typeBufSz at hfuel
    rw [if_pos (by omega)]
    rfl
  | succ fuel ih =>
    intro pos n acc hfuel hn
    unfold typeBufSz at hfuel
    unfold getTypeListLoop
    cases hc : typeCode prog place pos with
    | none =>
      have hle := typeCode_none.1 hc
      obtain rfl : n = 0 := by omega
      have hnil : typesFrom prog place 0 pos = [] := rfl
      rw [hnil, List.length_nil, if_neg (by omega), if_neg (by omega)]
    | some t =>
      have hlt : pos < codesLeft prog place := by
        by_contra hge
        rw [typeCode_none.2 (by omega)] at hc
        cases hc
      obtain ⟨n, rfl⟩ : ∃ m, n = m + 1 := ⟨n - 1, by omega⟩
      have htypes : typesFrom prog place (n + 1) pos
          = if t = 0 then [] else t :: typesFrom prog place n (pos + 1) := by
        show (match typeCode prog place pos with | none => _ | some t => _) = _
        rw [hc]
      rw [htypes]
      dsimp only
      by_cases ht : t = 0
      · rw [if_pos ht, if_pos ht, List.length_nil, if_neg (by omega),
          if_pos (by omega), List.append_nil]
        rfl
      · rw [if_neg ht, if_neg ht, List.length_cons]
        by_cases hpos : pos < typeBufSz
        · rw [inside hpos]
          show getTypeListLoop prog place fuel (pos + 1) (acc ++ [t]) = _
          rw [ih (n := n) (by unfold typeBufSz; omega) (by omega),
            List.append_assoc]
          have harith : pos + 1 + (typesFrom prog place n (pos + 1)).length
              = pos + ((typesFrom prog place n (pos + 1)).length + 1) := by
            omega
          rw [harith]
          rfl
        · rw [outside hpos]
          unfold typeBufSz at hpos
          rw [if_pos (by omega)]
          rfl

/-- `get_type_list` on any text. -/
theorem getTypeList_eq (place : Nat) :
    getTypeList prog place
      = if 64 < (typesAt prog place).length then .error .undefined
        else match typesEnd prog place with
          | none => .error .reject
          | some q => .ok (typesAt prog place, q) := by
  unfold getTypeList
  rw [getTypeListLoop_eq (n := codesLeft prog place) (by rfl) (by rfl),
    List.nil_append, Nat.zero_add]
  unfold typesEnd
  show (if 64 < (typesAt prog place).length then _ else _) = _
  split
  · rfl
  · show (if (typesAt prog place).length < _ then _ else _) = _
    split <;> rfl

-- ======== the tables

/-- The entries from `fnNum` on are free, and the counters are in their
bounds. -/
structure PopState.Free (s : PopState) : Prop where
  zero : ∀ k, s.fnNum ≤ k → s.tab.fns k = FnInfo.zero
  num : s.fnNum ≤ 64
  heap : s.tab.heapPos ≤ 4096

theorem Room.head (hr : Room n h (m :: ms)) :
    n + 1 ≤ 64 ∧ m.params.length ≤ 64 ∧ (∀ ls, m.locals = some ls → ls.length ≤ 64)
      ∧ h + m.stored ≤ 4096 ∧ Room (n + 1) (h + m.stored) ms := by
  obtain ⟨h1, h2, h3, h4⟩ := hr
  rw [List.length_cons] at h1
  rw [List.map_cons, List.sum_cons] at h4
  refine ⟨by omega, h2 m (List.mem_cons_self ..), h3 m (List.mem_cons_self ..),
    by omega, by omega, fun m' hm => h2 m' (List.mem_cons_of_mem _ hm),
    fun m' hm => h3 m' (List.mem_cons_of_mem _ hm), by omega⟩

theorem Room.cons
    (hp : m.params.length ≤ 64) (hl : ∀ ls, m.locals = some ls → ls.length ≤ 64)
    (hr : Room (n + 1) (h + m.stored) ms) : Room n h (m :: ms) := by
  obtain ⟨h1, h2, h3, h4⟩ := hr
  refine ⟨?_, ?_, ?_, ?_⟩
  · rw [List.length_cons]
    omega
  · intro m' hm
    rcases List.mem_cons.1 hm with rfl | hm
    · exact hp
    · exact h2 m' hm
  · intro m' hm
    rcases List.mem_cons.1 hm with rfl | hm
    · exact hl
    · exact h3 m' hm
  · rw [List.map_cons, List.sum_cons]
    omega

theorem room_nil (hn : n ≤ 64) (hh : h ≤ 4096) : Room n h [] :=
  ⟨by simpa using hn, fun m hm => (by cases hm), fun m hm => (by cases hm),
    by simpa using hh⟩

/-- What a declaration comes to: it is stored and the loop goes on behind
it, it is cut off, or something does not fit. -/
inductive AddFn (prog : List Byte) (rt : Ty) (s : PopState) : Prop
  | stored (s' : PopState) (r : Nat) (hs : addFn prog rt s = .ok s')
      (hend : (metAt prog s.place).2 = some r) (hplace : s'.place = r)
      (hnum : s'.fnNum = s.fnNum + 1)
      (hheap : s'.tab.heapPos = s.tab.heapPos + (metAt prog s.place).1.stored)
      (hfree : s'.Free)
      (hroom : Room s.fnNum s.tab.heapPos [(metAt prog s.place).1])
  | cut (hs : addFn prog rt s = .error .reject)
      (hend : (metAt prog s.place).2 = none)
      (hroom : Room s.fnNum s.tab.heapPos [(metAt prog s.place).1])
  | full (hs : addFn prog rt s = .error .undefined)
      (hroom : ¬ Room s.fnNum s.tab.heapPos [(metAt prog s.place).1])

theorem metAt_params (place : Nat) : (metAt prog place).1.params = typesAt prog place := by
  unfold metAt
  split
  · rfl
  · split <;> rfl

theorem metAt_cut {place : Nat} (h : typesEnd prog place = none) :
    metAt prog place = (⟨typesAt prog place, none, false⟩, none) := by
  unfold metAt
  rw [h]

theorem metAt_open {place : Nat} (h : typesEnd prog place = some q)
    (hq : typesEnd prog q = none) :
    metAt prog place = (⟨typesAt prog place, some (typesAt prog q), false⟩, none) := by
  unfold metAt
  rw [h]
  dsimp only
  rw [hq]

theorem metAt_closed {place r : Nat} (h : typesEnd prog place = some q)
    (hq : typesEnd prog q = some r) :
    metAt prog place = (⟨typesAt prog place, some (typesAt prog q), true⟩, some r) := by
  unfold metAt
  rw [h]
  dsimp only
  rw [hq]

theorem metAt_locals {place : Nat} (h : typesEnd prog place = some q) :
    (metAt prog place).1.locals = some (typesAt prog q)
      ∧ (typesAt prog place).length ≤ (metAt prog place).1.stored := by
  cases hq : typesEnd prog q with
  | none =>
    rw [metAt_open h hq]
    exact ⟨rfl, Nat.le_add_right _ _⟩
  | some r =>
    rw [metAt_closed h hq]
    exact ⟨rfl, Nat.le_add_right _ _⟩

theorem getTypeList_found {place : Nat} {ts : List Ty} (h : getTypeList prog place = .ok (ts, q)) :
    typesAt prog place = ts ∧ (typesAt prog place).length ≤ 64 ∧ typesEnd prog place = some q := by
  rw [getTypeList_eq] at h
  split at h
  · cases h
  · next hlong =>
    split at h
    · cases h
    · next he =>
      cases h
      exact ⟨rfl, Nat.not_lt.1 hlong, he⟩

/-- What one list of a declaration comes to: it does not fit, it is cut
off, or it is stored and the rest goes on behind it. -/
inductive AddList (prog : List Byte) (place n : Nat) (tab : FnTable) (fn : FnInfo)
    (rest : FnTable → Nat → Res PopState) (x : Res PopState) : Prop
  | full (hx : x = .error .undefined)
      (h : 64 < (typesAt prog place).length ∨ ∃ q, typesEnd prog place = some q
        ∧ 4096 < tab.heapPos + (typesAt prog place).length)
  | cut (hx : x = .error .reject) (hlen : (typesAt prog place).length ≤ 64)
      (hend : typesEnd prog place = none)
  | stored (q : Nat) (tab' : FnTable) (hx : x = rest tab' q)
      (hlen : (typesAt prog place).length ≤ 64) (hend : typesEnd prog place = some q)
      (hpos : tab'.heapPos = tab.heapPos + (typesAt prog place).length)
      (hfit : tab'.heapPos ≤ 4096) (hfns : tab'.fns = (tab.setFn n fn).fns)

theorem addList_cases {place n : Nat} {fn : FnInfo} {add : List Ty → Res FnTable}
    (rest : FnTable → Nat → Res PopState) (hheap : tab.heapPos ≤ 4096)
    (hadd : add (typesAt prog place) = (tab.setFn n fn).append (typesAt prog place)) :
    AddList prog place n tab fn rest
      (getTypeList prog place >>= fun ps => add ps.1 >>= fun tab => rest tab ps.2) := by
  rw [getTypeList_eq]
  split
  · next hlong => exact .full rfl (.inl hlong)
  next hlong =>
  cases hend : typesEnd prog place with
  | none => exact .cut rfl (Nat.not_lt.1 hlong) hend
  | some q =>
    show AddList _ _ _ _ _ _ (add (typesAt prog place) >>= fun tab => rest tab q)
    rw [hadd]
    unfold FnTable.append FnTable.setFn heapSz
    by_cases hfit : tab.heapPos + (typesAt prog place).length ≤ 4096
    · rw [inside (.inr hfit)]
      exact .stored q _ rfl (Nat.not_lt.1 hlong) hend rfl hfit rfl
    · rw [outside (by dsimp only; omega)]
      exact .full rfl (.inr ⟨q, hend, by omega⟩)

/-- One declaration. -/
theorem addFn_cases (rt : Ty) {s : PopState} (hs : s.Free) : AddFn prog rt s := by
  by_cases hn : s.fnNum < fnInfosSz
  swap
  · refine .full ?_ fun hr => ?_
    · unfold addFn
      rw [outside hn]
      rfl
    · have := hr.head.1
      unfold fnInfosSz at hn
      omega
  have hin := inside hn
  unfold fnInfosSz at hn
  -- the entry with its result type
  let tab0 := s.tab.setFn s.fnNum { s.tab.fns s.fnNum with rt := rt }
  have hheap : tab0.heapPos ≤ 4096 := hs.heap
  have hentry : tab0.fns s.fnNum = { FnInfo.zero with rt := rt } := by
    show (if s.fnNum = s.fnNum then _ else _) = _
    rw [if_pos rfl, hs.zero _ (Nat.le_refl _)]
  have hadd : addFn prog rt s = (do
      let ps ← getTypeList prog s.place
      let tab ← addFnParams tab0 s.fnNum ps.1
      let ls ← getTypeList prog ps.2
      let tab ← addFnLocals tab s.fnNum ls.1
      .ok ⟨ls.2, s.fnNum + 1, tab⟩) := by
    unfold addFn
    rw [hin]
    rfl
  have hparams : addFnParams tab0 s.fnNum (typesAt prog s.place)
      = (tab0.setFn s.fnNum { tab0.fns s.fnNum with
          paramT := some tab0.heapPos
          paramN := (typesAt prog s.place).length }).append (typesAt prog s.place) := by
    unfold addFnParams
    rw [hentry]
    rfl
  cases addList_cases (fun tab q => do
      let ls ← getTypeList prog q
      let tab ← addFnLocals tab s.fnNum ls.1
      .ok ⟨ls.2, s.fnNum + 1, tab⟩) hheap hparams with
  | full hx h =>
    refine .full (hadd.trans hx) fun hr => ?_
    rcases h with hlong | ⟨q, hend, hbig⟩
    · have := hr.head.2.1
      rw [metAt_params] at this
      omega
    · have hbig : 4096 < s.tab.heapPos + (typesAt prog s.place).length := hbig
      have := hr.head.2.2.2.1
      have := (metAt_locals hend).2
      omega
  | cut hx hlen hend =>
    have hm := metAt_cut hend
    refine .cut (hadd.trans hx) (by rw [hm]) ?_
    rw [hm]
    exact Room.cons hlen (fun ls hls => by cases hls) (room_nil hn hheap)
  | stored q tab1 hx hlen hend hpos1 hfit hfns1 =>
    have hpos1 : tab1.heapPos = s.tab.heapPos + (typesAt prog s.place).length := hpos1
    obtain ⟨hlocals, -⟩ := metAt_locals hend
    have hlocals' : addFnLocals tab1 s.fnNum (typesAt prog q)
        = (tab1.setFn s.fnNum { tab1.fns s.fnNum with
            localT := some tab1.heapPos
            localN := (typesAt prog q).length }).append (typesAt prog q) := by
      have hentry1 : (tab1.fns s.fnNum).localT = none := by
        rw [hfns1]
        show FnInfo.localT (if s.fnNum = s.fnNum then _ else _) = _
        rw [if_pos rfl, hentry]
        rfl
      unfold addFnLocals
      rw [hentry1]
    have hadd1 := hadd.trans hx
    cases addList_cases (fun tab r => .ok ⟨r, s.fnNum + 1, tab⟩) hfit hlocals' with
    | full hx' h =>
      refine .full (hadd1.trans hx') fun hr => ?_
      rcases h with hlong | ⟨r, hend', hbig⟩
      · have := hr.head.2.2.1 _ hlocals
        omega
      · have := hr.head.2.2.2.1
        rw [metAt_closed hend hend'] at this
        have : s.tab.heapPos + ((typesAt prog s.place).length + (typesAt prog q).length) ≤ 4096 :=
          this
        omega
    | cut hx' hlen' hend' =>
      have hm := metAt_open hend hend'
      refine .cut (hadd1.trans hx') (by rw [hm]) ?_
      rw [hm]
      refine Room.cons hlen (fun ls hls => ?_) (room_nil hn (hpos1 ▸ hfit))
      cases hls
      exact hlen'
    | stored r tab2 hx' hlen' hend' hpos2 hfit' hfns2 =>
      have hm := metAt_closed hend hend'
      have hheap2 : tab2.heapPos = s.tab.heapPos + (metAt prog s.place).1.stored := by
        rw [hm, hpos2, hpos1]
        exact Nat.add_assoc ..
      refine .stored ⟨r, s.fnNum + 1, tab2⟩ r (hadd1.trans hx') (by rw [hm]) rfl rfl hheap2
        ⟨fun k hk => ?_, hn, hfit'⟩ ?_
      · have hk : s.fnNum + 1 ≤ k := hk
        show tab2.fns k = _
        rw [hfns2]
        show (if k = s.fnNum then _ else tab1.fns k) = _
        rw [if_neg (by omega), hfns1]
        show (if k = s.fnNum then _ else if k = s.fnNum then _ else s.tab.fns k) = _
        rw [if_neg (by omega), if_neg (by omega)]
        exact hs.zero k (by omega)
      · refine Room.cons (by rw [metAt_params]; exact hlen) (fun ls hls => ?_)
          (room_nil hn (hheap2 ▸ hfit'))
        rw [hlocals] at hls
        cases hls
        exact hlen'

/-- The loop of `populate_fns` leaves its tables exactly if there is no
room for the declarations it meets. -/
theorem populate_undefined_iff :
    ∀ {fuel : Nat} {s : PopState}, s.Free →
      (whileLt prog.length PopState.place (populateStep prog) fuel s
          = .error .undefined
        ↔ ¬ Room s.fnNum s.tab.heapPos (metFrom prog fuel s.place)) := by
  intro fuel
  induction fuel with
  | zero =>
    intro s hs
    exact ⟨fun h => (by cases h), fun h => absurd (room_nil hs.num hs.heap) h⟩
  | succ fuel ih =>
    intro s hs
    have hroom : Room s.fnNum s.tab.heapPos [] := room_nil hs.num hs.heap
    unfold whileLt metFrom
    by_cases hlt : s.place < prog.length
    swap
    · rw [if_neg hlt, List.getElem?_eq_none (by omega)]
      exact ⟨fun h => (by cases h), fun h => absurd hroom h⟩
    have hb : prog[s.place]? = some prog[s.place] := List.getElem?_eq_getElem hlt
    rw [if_pos hlt, hb]
    dsimp only
    cases ht : Token.ofByte prog[s.place] with
    | none =>
      have hstep : populateStep prog s = .error .reject := by
        unfold populateStep
        rw [hb]
        dsimp only
        rw [ht]
      rw [hstep]
      exact ⟨fun h => (by cases h), fun h => absurd hroom h⟩
    | some t =>
      have hfree : ∀ p, PopState.Free { s with place := p } := fun p =>
        ⟨hs.zero, hs.num, hs.heap⟩
      rw [populateStep, hb]
      dsimp only
      rw [ht]
      dsimp only
      cases hop : t.operand with
      | none => exact ih (hfree (s.place + 1))
      | int =>
        dsimp only
        unfold getInt
        by_cases hfit : s.place + 1 + 4 < prog.length
        · rw [if_neg (by omega), if_pos hfit]
          exact ih (hfree (s.place + 5))
        · rw [if_pos (by omega), if_neg hfit]
          exact ⟨fun h => (by cases h), fun h => absurd hroom h⟩
      | types =>
        dsimp only
        rcases addFn_cases t.declRt (hfree (s.place + 1))
          with ⟨s', r, hs', hend, hplace, hnum, hheap, hfree', hr⟩
            | ⟨hs', hend, hr⟩ | ⟨hs', hr⟩
        · dsimp only at hend hnum hheap hr
          obtain ⟨-, h1, h2, h3, -⟩ := hr.head
          rw [hs', hend]
          show whileLt _ _ _ fuel s' = _ ↔ ¬ Room _ _ (_ :: metFrom prog fuel r)
          rw [ih hfree', hplace, hnum, hheap]
          exact not_congr ⟨fun h => Room.cons h1 h2 h, fun h => h.head.2.2.2.2⟩
        · dsimp only at hend hr
          rw [hs', hend]
          exact ⟨fun h => (by cases h), fun h => absurd hr h⟩
        · dsimp only at hr
          rw [hs']
          refine ⟨fun _ h => hr ?_, fun _ => rfl⟩
          obtain ⟨h0, h1, h2, h3, -⟩ := h.head
          exact Room.cons h1 h2 (room_nil h0 h3)

theorem populateFns_undefined_iff :
    populateFns prog FnTable.empty = .error .undefined ↔ ¬ Room 0 0 (met prog) :=
  populate_undefined_iff (s := ⟨0, 0, FnTable.empty⟩) ⟨fun _ _ => rfl, Nat.zero_le _, Nat.zero_le _⟩

-- ======== one operation

/-- A computation that stays inside its tables. -/
def Defined {α : Type} (x : Res α) : Prop := x ≠ .error .undefined

theorem Defined.ok {α : Type} {a : α} : Defined (.ok a) := fun h => (by cases h)

theorem Defined.bind {α β : Type} {x : Res α} {f : α → Res β} (hx : Defined x)
    (hf : ∀ a, x = .ok a → Defined (f a)) : Defined (x >>= f) := by
  cases x with
  | ok a => exact hf a rfl
  | error e =>
    intro h
    have h : (.error e : Res β) = .error .undefined := h
    cases h
    exact hx rfl

theorem defined_require (c : Bool) : Defined (require c) := by
  cases c <;> exact fun h => (by cases h)

theorem defined_inRange {c : Bool} (h : c = true) : Defined (inRange c) := by
  rw [h]
  exact Defined.ok

-- ======== stack and frames

/-- The invariant of `stk_pos`, `frames` and `cur_frame`: the frames lie
on top of each other, and the stack ends in the innermost. -/
structure Framed (s : VState) : Prop where
  depth : -1 ≤ s.curFrame ∧ s.curFrame ≤ 63
  outside : s.curFrame = -1 ↔ s.stkPos = -1
  bottom0 : s.curFrame ≠ -1 → (s.frames 0).bottom = 0
  chain : ∀ k, 0 ≤ k → k < s.curFrame → (s.frames k).bottom ≤ (s.frames (k + 1)).bottom ∧
    (s.frames k).top = (s.frames (k + 1)).bottom
  pos : s.curFrame ≠ -1 → (s.frames s.curFrame).bottom ≤ s.stkPos ∧ s.stkPos ≤ stackSz

/-- An entry of the stack that belongs to the innermost frame. -/
def InFrame (s : VState) (i : Int) : Prop :=
  0 ≤ i ∧ (s.frames s.curFrame).bottom ≤ i ∧ i < stackSz

theorem Rep.framed {s : VState} {v : View} (h : Rep s v) (hok : v.Ok) : Framed s := by
  have hcur := h.frame
  have hdepth := h.depth
  have hin : s.curFrame ≠ -1 → ∃ h₀ hs, v.hts = h₀ :: hs := by
    intro hne
    cases hh : v.hts with
    | nil => exact absurd (by rw [hcur, hh]; rfl) hne
    | cons h₀ hs => exact ⟨h₀, hs, rfl⟩
  refine ⟨by omega, ⟨fun he => ?_, fun hp => ?_⟩, fun _ => h.bottom0, fun k h0 hk => ?_,
    fun hne => ?_⟩
  · rw [h.pos, if_pos (List.eq_nil_of_length_eq_zero (by omega))]
  · by_contra hne
    obtain ⟨h₀, hs, hh⟩ := hin hne
    rw [h.pos_of (by rw [hh]; exact List.cons_ne_nil _ _)] at hp
    omega
  · obtain ⟨n, rfl⟩ := Int.eq_ofNat_of_zero_le h0
    have hn : n + 1 < v.hts.reverse.length := by
      rw [List.length_reverse]
      omega
    have ha := h.bottom n _ (List.getElem?_eq_getElem (by omega))
    have hb := h.bottom (n + 1) _ (List.getElem?_eq_getElem hn)
    have ht := h.top n _ (List.getElem?_eq_getElem hn)
    have hle := List.pairwise_iff_getElem.1 (List.pairwise_reverse.2 hok.mono.of_cons) n (n + 1)
      (by omega) hn (Nat.lt_succ_self n)
    rw [Int.natCast_add] at hb
    exact ⟨by rw [ha]; exact hb ▸ Int.ofNat_le.2 hle, ht.trans hb.symm⟩
  · obtain ⟨h₀, hs, hh⟩ := hin hne
    rw [h.bottom_top hh, h.pos_of (by rw [hh]; exact List.cons_ne_nil _ _)]
    have hle : h₀ ≤ v.stk.length := hok.height_le (n := 0) (by rw [hh]; rfl)
    have hcap := h.cap
    unfold stackSz
    omega

theorem Framed.bottom_nonneg {s : VState} (h : Framed s) (hn : n ≤ s.curFrame) :
    0 ≤ (s.frames n).bottom := by
  induction n with
  | zero => exact (h.bottom0 (by omega)).ge
  | succ n ih => exact (ih (by omega)).trans (h.chain n (by omega) (by omega)).1

theorem Framed.pos_nonneg {s : VState} (h : Framed s) (hne : s.curFrame ≠ -1) :
    0 ≤ (s.frames s.curFrame).bottom := by
  have hd := h.depth.1
  obtain ⟨n, hn⟩ := Int.eq_ofNat_of_zero_le (show 0 ≤ s.curFrame by omega)
  rw [hn]
  exact h.bottom_nonneg hn.ge

/-- `push_t` writes above the bottom of the frame and inside the table. -/
theorem Framed.pushT {s : VState} (h : Framed s) (t : Ty) : Defined (pushT t s) ∧
    ∀ s', Sume.pushT t s = .ok s' → InFrame s s.stkPos ∧
      (∀ i, i ≠ s.stkPos → s'.stack i = s.stack i) ∧ Framed s' := by
  have hin : s.stkPos ≠ -1 → 0 ≤ (s.frames s.curFrame).bottom ∧
      (s.frames s.curFrame).bottom ≤ s.stkPos := fun hne =>
    have hne := mt h.outside.1 hne
    ⟨h.pos_nonneg hne, (h.pos hne).1⟩
  constructor
  · refine (defined_require _).bind fun _ h1 => (defined_require _).bind fun _ _ =>
      (defined_inRange ?_).bind fun _ _ => Defined.ok
    rw [require_decide] at h1
    have := hin h1
    exact decide_eq_true (by omega)
  · intro s' hp
    unfold Sume.pushT at hp
    obtain ⟨_, h1, hp⟩ := bind_eq_ok.1 hp
    obtain ⟨_, h2, hp⟩ := bind_eq_ok.1 hp
    obtain ⟨_, h3, hp⟩ := bind_eq_ok.1 hp
    simp only [require_decide, inRange_decide] at h1 h2 h3
    have hb := hin h1
    cases hp
    refine ⟨⟨h3, hb.2, h2⟩, fun i hi => if_neg hi, h.depth, ?_, h.bottom0, h.chain, fun _ => ?_⟩
    · have := h.outside
      exact ⟨fun he => absurd (this.1 he) h1, fun he => by dsimp only at he; omega⟩
    · dsimp only
      omega

/-- `pop_t` reads above the bottom of the frame and inside the table. -/
theorem Framed.popT {s : VState} (h : Framed s) : Defined (popT s) ∧
    ∀ r, Sume.popT s = .ok r → InFrame s (s.stkPos - 1) ∧ r.1 = s.stack (s.stkPos - 1) ∧
      r.2.stack = s.stack ∧ Framed r.2 := by
  have hd := h.depth
  constructor
  · refine (defined_require _).bind fun _ h1 => (defined_inRange ?_).bind fun _ _ =>
      (defined_require _).bind fun _ h2 => (defined_inRange ?_).bind fun _ _ => Defined.ok
    all_goals rw [require_decide] at h1
    · exact decide_eq_true (by unfold framesSz; omega)
    · rw [require_decide] at h2
      have hb := h.pos_nonneg h1
      have hp := h.pos h1
      exact decide_eq_true (by omega)
  · intro r hp
    unfold Sume.popT at hp
    obtain ⟨_, h1, hp⟩ := bind_eq_ok.1 hp
    obtain ⟨_, h2, hp⟩ := bind_eq_ok.1 hp
    obtain ⟨_, h3, hp⟩ := bind_eq_ok.1 hp
    obtain ⟨_, h4, hp⟩ := bind_eq_ok.1 hp
    simp only [require_decide, inRange_decide] at h1 h2 h3 h4
    have hpos := h.pos h1
    cases hp
    refine ⟨⟨h4.1, by omega, h4.2⟩, rfl, rfl, hd, ?_, h.bottom0, h.chain, fun _ => ?_⟩
    · exact ⟨fun he => absurd he h1, fun he => by dsimp only at he; omega⟩
    · dsimp only
      omega

-- ======== one round

section Round

variable {tab : FnTable} {sigs : List Sig} {s : VState} {v : View} {i : Instr}
  {p : Nat}

/-- A round leaves the tables only at a `ret`, when it reads a function
whose number nobody has set to one of the table's. -/
theorem verifyStep_undefined (htab : TableRep tab sigs) (hrep : Rep s v) (hok : v.Ok)
    (hle : v.fns ≤ 64) (hi : instrAt prog s.place = .ok (i, p))
    (h : verifyStep prog tab sigs.length s = .error .undefined) :
    i.token = .ret ∧ v.hts ≠ [] ∧ prog[p]? = some endByte ∧ ¬ (0 ≤ v.last ∧ v.last < 64) :=
  ((verifyStep_matches (E := fun e => e = .undefined → BadFn prog p v i) nofun htab
    (fun hbad _ => hbad) hrep hok hi).of_error h rfl).resolve_right (Nat.not_lt.2 hle)

theorem verifyStep_bad_ret (hrep : Rep s v) (hi : instrAt prog s.place = .ok (i, p))
    (hret : i.token = .ret) (hne : v.hts ≠ []) (hend : prog[p]? = some endByte)
    (hfn : ¬ (0 ≤ v.last ∧ v.last < 64)) :
    verifyStep prog tab sigs.length s = .error .undefined := by
  obtain ⟨b, hb, ht, hp, -, -⟩ := instrAt_inv hi
  obtain rfl := hp (by rw [hret]; rfl)
  unfold verifyStep
  simp only [hb, ht, hret]
  show (require _ >>= fun _ => requireEnd prog (s.place + 1) >>= fun _ =>
    tab.fnAt s.fnum >>= _) = _
  rw [(hrep.place (s.place + 1)).isInFn.2 hne, requireEnd_eq, hend, hrep.fnum, fnAt_outside hfn]
  rfl

end Round

-- ======== the scan

/-- The scan of `verify` reaches a `ret`, in a function and followed by
an `end`, and has met no `call` before. -/
def EarlyRet (prog : List Byte) (slot : Int) (ts : List Instr) : Prop :=
  ∃ k s, verifyAt prog slot k = .ok s ∧ 0 ≤ s.curFrame
    ∧ ts[k]?.map Instr.token = some .ret
    ∧ ts[k + 1]?.map Instr.token = some .end_ ∧ lastCall ts k = none

section Scan

variable {slot : Int} {ts : List Instr} {tab : FnTable}

/-- The rounds of the scan, with what their states represent. -/
theorem scan_rep (hsc : Scans prog 0 ts) (htab : TableRep tab (sigsOf ts))
    {s : VState} (hk : k ≤ ts.length)
    (hs : iterate (verifyStep prog tab (sigsOf ts).length) k (VState.init slot) = .ok s) :
    ∃ v, Rep s v ∧ v.Ok ∧ v.fns ≤ 64 ∧ Scans prog s.place (ts.drop k)
      ∧ v.last = (lastCall ts k).elim slot BitVec.toInt
      ∧ ∀ n, lastCall ts k = some n → ∃ f, sigNum (sigsOf ts) n.toInt = some f := by
  obtain ⟨v, hv, hrep, hok, hrest⟩ := iterate_refines hsc htab hk hs
  obtain ⟨hlast, hcall⟩ := viewAt_last hk hv
  refine ⟨v, hrep, hok, ?_, hrest, hlast, hcall⟩
  rw [viewAt_fns hk hv]
  have h1 : declsBefore ts k ≤ (sigsOf ts).length := by
    rw [← declsBefore_length]
    exact declsBefore_mono hk
  have h2 := htab.len
  unfold fnInfosSz at h2
  omega

theorem scan_lt (hsc : Scans prog 0 ts) (htab : TableRep tab (sigsOf ts))
    {s : VState} (hk : k ≤ ts.length)
    (hs : iterate (verifyStep prog tab (sigsOf ts).length) k (VState.init slot) = .ok s)
    (hlt : s.place < prog.length) : k < ts.length := by
  obtain ⟨-, -, -, -, hrest, -⟩ := scan_rep hsc htab hk hs
  by_contra hge
  rw [List.drop_eq_nil_of_le (by omega)] at hrest
  cases hrest with
  | nil hp => omega

/-- The rounds of the scan are those of the instructions. -/
theorem scan_le (hsc : Scans prog 0 ts) (htab : TableRep tab (sigsOf ts)) {s : VState}
    (hs : iterate (verifyStep prog tab (sigsOf ts).length) k (VState.init slot) = .ok s) :
    k ≤ ts.length := by
  induction k generalizing s with
  | zero => exact Nat.zero_le _
  | succ k ih =>
    obtain ⟨s0, hs0⟩ := iterate_prefix hs (Nat.le_succ k)
    refine scan_lt hsc htab (ih hs0) hs0 ?_
    have hstep := iterate_step hs0 hs
    by_contra hge
    unfold verifyStep at hstep
    rw [List.getElem?_eq_none (by omega)] at hstep
    cases hstep

/-- The loop of `verify` leaves the tables if it reaches an early `ret`
with a slot outside them. -/
theorem scan_undefined_iff (hsc : Scans prog 0 ts) (htab : TableRep tab (sigsOf ts)) :
    whileLt prog.length VState.place (verifyStep prog tab (sigsOf ts).length)
        prog.length (VState.init slot) = .error .undefined
      ↔ (∃ k s, iterate (verifyStep prog tab (sigsOf ts).length) k (VState.init slot)
          = .ok s ∧ 0 ≤ s.curFrame ∧ ts[k]?.map Instr.token = some .ret
          ∧ ts[k + 1]?.map Instr.token = some .end_ ∧ lastCall ts k = none)
        ∧ ¬ (0 ≤ slot ∧ slot < 64) := by
  constructor
  · intro h
    obtain ⟨k, s, hs, hlt, hbody⟩ := whileLt_error h
    have hk := scan_lt hsc htab (scan_le hsc htab hs) hs hlt
    obtain ⟨v, hrep, hok, hle, hrest, hlast, hcall⟩ := scan_rep hsc htab (by omega) hs
    have hi : ts[k]? = some ts[k] := List.getElem?_eq_getElem hk
    obtain ⟨-, q, hq, hnext⟩ := hrest.head hi
    obtain ⟨hret, hne, hend, hfn⟩ := verifyStep_undefined htab hrep hok hle hq hbody
    rw [hlast] at hfn
    cases hl : lastCall ts k with
    | some n =>
      obtain ⟨f, hf⟩ := hcall n hl
      have hlen := htab.len
      unfold fnInfosSz at hlen
      rw [hl] at hfn
      unfold sigNum at hf
      split at hf
      · cases hf
      · have := lt_length hf
        exact absurd ⟨by simpa using ‹¬ _ < (0 : Int)›, by
          show n.toInt < 64
          omega⟩ hfn
    | none =>
      rw [hl] at hfn
      refine ⟨⟨k, s, hs, ?_, by rw [hi, Option.map_some, hret],
        (end_follows hnext).1 hend, hl⟩, hfn⟩
      have := hrep.isInFn.2 hne
      unfold VState.isInFn at this
      exact of_decide_eq_true this
  · rintro ⟨⟨k, s, hs, hcur, hret, hend, hl⟩, hslot⟩
    obtain ⟨i, hi, hret⟩ := Option.map_eq_some_iff.1 hret
    have hk : k < ts.length := lt_length hi
    have hin : ∀ j, j ≤ k → ∀ u, iterate (verifyStep prog tab (sigsOf ts).length) j
        (VState.init slot) = .ok u → u.place < prog.length := by
      intro j hj u hu
      obtain ⟨-, -, -, -, hrest, -⟩ := scan_rep hsc htab (by omega : j ≤ ts.length) hu
      exact (hrest.head (List.getElem?_eq_getElem (by omega : j < ts.length))).1
    obtain ⟨v, hrep, -, -, hrest, hlast, -⟩ := scan_rep hsc htab (by omega) hs
    obtain ⟨-, q, hq, hnext⟩ := hrest.head hi
    refine whileLt_error_of (Nat.lt_of_lt_of_le hk hsc.fuel) hs hin
      (verifyStep_bad_ret hrep hq hret ?_ ?_ ?_)
    · refine hrep.isInFn.1 ?_
      unfold VState.isInFn
      exact decide_eq_true hcur
    · exact (end_follows hnext).2 hend
    · rw [hlast, hl]
      exact hslot

end Scan

/-- `verify` makes no access outside its tables, if and only if they have
room for the declarations in the text and, when its scan reaches a `ret`
in front of any `call`, the uninitialised `fnum` is an index of
`fn_infos`. -/
theorem verify_in_bounds_iff (prog : List Byte) (slot : Int) :
    verify prog slot ≠ .error .undefined
      ↔ Room 0 0 (met prog)
        ∧ ∀ ts, decode prog = .ok ts →
          (∀ g, (sigsOf ts)[0]? = some g → g.params = []) →
          EarlyRet prog slot ts → 0 ≤ slot ∧ slot < 64 := by
  cases hpop : populateFns prog FnTable.empty with
  | error e =>
      have hverify : verify prog slot = .error e := by
        unfold verify
        rw [hpop]
        rfl
      have hno : ∀ ts, ¬ EarlyRet prog slot ts := by
        rintro ts ⟨k, s, hs, -⟩
        unfold verifyAt at hs
        rw [hpop] at hs
        cases hs
      have hiff : populateFns prog FnTable.empty = .error .undefined ↔ ¬ Room 0 0 (met prog) :=
        populateFns_undefined_iff
      rw [hpop] at hiff
      rw [hverify]
      refine ⟨fun hne => ⟨?_, fun ts _ _ h => absurd h (hno ts)⟩, fun h he => ?_⟩
      · by_contra hroom
        refine hne ?_
        have := hiff.2 hroom
        cases this
        rfl
      · cases he
        exact hiff.1 rfl h.1
  | ok pop =>
      have hroom : Room 0 0 (met prog) := by
        by_contra hno
        rw [populateFns_undefined_iff.2 hno] at hpop
        cases hpop
      obtain ⟨ts, hsc, htab, hnum⟩ := populateFns_scans hpop
      have hmain : (pop.tab.fns 0).paramN = 0
          ↔ ∀ g, (sigsOf ts)[0]? = some g → g.params = [] := by
        cases hg : (sigsOf ts)[0]? with
        | none =>
            rw [htab.zero 0 (List.getElem?_eq_none_iff.1 hg)]
            exact ⟨fun _ g h => (by cases h), fun _ => rfl⟩
        | some g =>
            rw [(htab.fn 0 g hg).params.1, List.length_eq_zero_iff]
            exact ⟨fun h g' h' => (by cases h'; exact h), fun h => h g rfl⟩
      have hverify : verify prog slot = .error .undefined
          ↔ (pop.tab.fns 0).paramN = 0 ∧ EarlyRet prog slot ts
            ∧ ¬ (0 ≤ slot ∧ slot < 64) := by
        have hearly : EarlyRet prog slot ts ↔ ∃ k s,
            iterate (verifyStep prog pop.tab (sigsOf ts).length) k (VState.init slot)
              = .ok s ∧ 0 ≤ s.curFrame ∧ ts[k]?.map Instr.token = some .ret
            ∧ ts[k + 1]?.map Instr.token = some .end_ ∧ lastCall ts k = none := by
          unfold EarlyRet verifyAt
          rw [hpop]
          show (∃ k s, iterate (verifyStep prog pop.tab pop.fnNum) k _ = _ ∧ _) ↔ _
          rw [hnum]
        rw [hearly, ← scan_undefined_iff hsc htab]
        unfold verify
        rw [hpop]
        show (require _ >>= fun _ => _) = _ ↔ _
        rw [hnum]
        by_cases h0 : (pop.tab.fns 0).paramN = 0
        · rw [decide_eq_true h0]
          exact ⟨fun h => ⟨h0, h⟩, fun h => h.2⟩
        · rw [decide_eq_false h0]
          exact ⟨fun h => (by cases h), fun h => absurd h.1 h0⟩
      rw [ne_eq, hverify, hmain]
      refine ⟨fun h => ⟨hroom, fun us hus hm he => ?_⟩, fun h he => ?_⟩
      · obtain rfl : ts = us := Except.ok.inj (hsc.decode.symm.trans hus)
        by_contra hslot
        exact h ⟨hm, he, hslot⟩
      · exact he.2.2 (h.2 ts hsc.decode he.1 he.2.1)

/-- The states of `verify` between two tokens keep their frames, `push_t`
and `pop_t` touch the innermost one alone, and an `end` goes back to the
height and the depth in front of the block it closes. -/
theorem verifyAt_framed {slot : Int} {k : Nat} {s : VState} (hs : verifyAt prog slot k = .ok s) :
    Framed s ∧
    (∀ u t, Framed u → Defined (pushT t u) ∧ ∀ u', pushT t u = .ok u' → InFrame u u.stkPos ∧
      (∀ i, i ≠ u.stkPos → u'.stack i = u.stack i) ∧ Framed u') ∧
    (∀ u, Framed u → Defined (popT u) ∧ ∀ r, popT u = .ok r → InFrame u (u.stkPos - 1) ∧
      r.1 = u.stack (u.stkPos - 1) ∧ r.2.stack = u.stack ∧ Framed r.2) ∧
    ∀ ts j s', decode prog = .ok ts → Closes ts j k → verifyAt prog slot (k + 1) = .ok s' →
      ∃ s₀, verifyAt prog slot j = .ok s₀ ∧ s'.stkPos = s₀.stkPos ∧ s'.curFrame = s₀.curFrame := by
  unfold verifyAt at hs ⊢
  obtain ⟨pop, hpop, hs⟩ := bind_eq_ok.1 hs
  obtain ⟨ts, hsc, htab, hnum⟩ := populateFns_scans hpop
  rw [hpop]
  show _ ∧ _ ∧ _ ∧ ∀ _ _ _, _ → _ → iterate (verifyStep prog pop.tab pop.fnNum) _ _ = _ →
    ∃ _, iterate (verifyStep prog pop.tab pop.fnNum) _ _ = _ ∧ _
  rw [hnum] at hs ⊢
  obtain ⟨v, hv, hrep, hok, -⟩ := iterate_refines hsc htab (scan_le hsc htab hs) hs
  refine ⟨hrep.framed hok, fun u t hu => hu.pushT t, fun u hu => hu.popT, ?_⟩
  intro us j s' hus ⟨hend, hopen⟩ hs'
  obtain rfl : ts = us := Except.ok.inj (hsc.decode.symm.trans hus)
  have hk := scan_le hsc htab hs'
  obtain ⟨v', hv', hrep', -, -⟩ := iterate_refines hsc htab hk hs'
  obtain ⟨i, hi, hend⟩ := Option.map_eq_some_iff.1 hend
  obtain ⟨v0, hv0, hc⟩ := viewAt_prev hi hv'
  obtain rfl : v = v0 := Option.some.inj (hv.symm.trans hv0)
  -- the block's frame in the view, and the view in front of the block
  obtain ⟨_, vj, hf⟩ := (viewAt_nested (by omega) hv).frame 0 j (List.head?_eq_getElem? ▸ hopen)
  obtain ⟨s₀, hs₀⟩ := iterate_prefix hs (Nat.le_of_lt hf.before)
  obtain ⟨_, hvj, hrepj, -, -⟩ := iterate_refines hsc htab (scan_le hsc htab hs₀) hs₀
  obtain rfl := Option.some.inj (hf.view.symm.trans hvj)
  have hhts : vj.hts = v'.hts ∧ (v'.hts ≠ [] → v'.stk.length = vj.stk.length) := by
    have hout := hf.outer
    have hh := hf.height
    rcases check_end hend hc with ⟨h₀, hv1, rfl⟩ | ⟨h₀, h₁, hs, hv1, rfl⟩
    · rw [hv1] at hout
      exact ⟨hout, fun hne => absurd rfl hne⟩
    · rw [hv1] at hout hh
      cases hh
      exact ⟨hout, fun _ => congrArg List.length hf.kept⟩
  refine ⟨s₀, hs₀, ?_, ?_⟩
  · rw [hrep'.pos, hrepj.pos, hhts.1]
    split
    · rfl
    · next hne => rw [hhts.2 hne]
  · rw [hrep'.frame, hrepj.frame, hhts.1]

theorem verifyAt_framed_block : ∃ s, verifyAt [0x31, 0, 0, 0x2a, 0x2f, 0x2f] 0 2 = .ok s ∧
    s.curFrame = 1 ∧ Framed s := by
  obtain ⟨s, hs, hcur⟩ : ∃ s, verifyAt [0x31, 0, 0, 0x2a, 0x2f, 0x2f] 0 2 = .ok s ∧
    s.curFrame = 1 := ⟨_, rfl, rfl⟩
  exact ⟨s, hs, hcur, (verifyAt_framed hs).1⟩

/-- What a computation is when it is known to stop outside its tables. -/
theorem eq_undefined {α : Type} {x : Res α}
    (h : (match x with | .error .undefined => true | _ => false) = true) :
    x = .error .undefined := by
  match x, h with
  | .error .undefined, _ => rfl

/-- A text of 65 declarations makes `verify` write behind `fn_infos`, and
a `ret` in front of every `call` makes it read there when the slot of
`fnum` holds 64. -/
theorem verify_out_of_bounds :
    verify (List.replicate 65 [0x31, 0, 0]).flatten 0 = .error .undefined
      ∧ verify [0x31, 0, 0, 0x2e, 0x2f] 64 = .error .undefined := by
  exact ⟨eq_undefined (by decide +kernel), rfl⟩

end Xv6Sume32.Sume
