/-
What the assembler writes, the passes read back.

`instrAt` finds an encoded instruction where its bytes are
(`instrAt_encode`), so the encoding of a list scans as that list; the
passes then step through it by what is known of them on any program. What
is left to show for the encoding is that a packed type list ends where it
should: the code behind the last type is 0 and in the last byte.

An operand of four bytes is read only with a byte behind it, so the last
instruction must not have one.
-/
import Xv6Sume32.Sume.Proofs.Safety
import Xv6Sume32.Sume.Proofs.Text
import Xv6Sume32.Asm.Proofs.Agree

namespace Xv6Sume32.Asm

open Lib Sume

variable {prog : List Byte} {ts : List Sume.Instr}

variable {tys : List Ty} {p k : Nat} {text : List Byte} {i : Sume.Instr} {s : PopState}

-- ======== type lists

/-- The types that have names. -/
def Named (tys : List Ty) : Prop := ∀ t ∈ tys, t = 1 ∨ t = 2

theorem code_codeByte (c : Fin 4 → Fin 4) (o : Fin 4) :
    (codeByte (BitVec.ofNat 8 (c 0).val) (BitVec.ofNat 8 (c 1).val)
        (BitVec.ofNat 8 (c 2).val) (BitVec.ofNat 8 (c 3).val) >>> (2 * o.val)) &&& 3
      = BitVec.ofNat 8 (c o).val := by
  have hall : ∀ c0 c1 c2 c3 o : Fin 4,
      (codeByte (BitVec.ofNat 8 c0.val) (BitVec.ofNat 8 c1.val) (BitVec.ofNat 8 c2.val)
          (BitVec.ofNat 8 c3.val) >>> (2 * o.val)) &&& 3
        = BitVec.ofNat 8 (![c0, c1, c2, c3] o).val := by decide +kernel
  rw [hall]
  congr 2
  fin_cases o <;> rfl

theorem Named.getD (h : Named tys) (n : Nat) :
    ∃ f : Fin 4, tys.getD n 0 = BitVec.ofNat 8 f.val ∧ (n < tys.length → tys.getD n 0 ≠ 0) := by
  rw [List.getD_eq_getElem?_getD]
  rcases Nat.lt_or_ge n tys.length with hlt | hge
  · rw [List.getElem?_eq_getElem hlt, Option.getD_some]
    rcases h _ (List.getElem_mem hlt) with h1 | h2
    · exact ⟨1, h1, fun _ => by rw [h1]; decide⟩
    · exact ⟨2, h2, fun _ => by rw [h2]; decide⟩
  · rw [List.getElem?_eq_none hge]
    exact ⟨0, rfl, fun hlt => absurd hlt (Nat.not_lt.2 hge)⟩

/-- The codes of a packed list are its types, with 0 behind. -/
theorem typeCode_pack (hn : Named tys) {pos : Nat} {rest : List Byte}
    (h : prog.drop p = pack tys ++ rest) (hpos : pos ≤ tys.length) :
    typeCode prog p pos = some (tys.getD pos 0) := by
  have hj : pos / 4 < tys.length / 4 + 1 := by omega
  have hbyte : prog[p + pos / 4]? = some (packByte tys (pos / 4)) := by
    rw [getElem?_of_drop h, List.getElem?_append_left (by
      unfold pack
      rw [List.length_map, List.length_range]
      exact hj)]
    unfold pack
    rw [List.getElem?_map, List.getElem?_range hj]
    rfl
  choose f hf using fun o : Fin 4 => hn.getD (4 * (pos / 4) + o.val)
  have hcode := code_codeByte f ⟨pos % 4, Nat.mod_lt _ (by decide)⟩
  rw [← (hf 0).1, ← (hf 1).1, ← (hf 2).1, ← (hf 3).1, ← (hf _).1] at hcode
  unfold typeCode
  rw [hbyte, Option.map_some]
  refine congrArg some (hcode.trans ?_)
  rw [show 4 * (pos / 4) + pos % 4 = pos by omega]

/-- `get_type_list` reads a packed list back. -/
theorem getTypeList_pack (hn : Named tys) (hlen : tys.length ≤ 64)
    {rest : List Byte} (h : prog.drop p = pack tys ++ rest) :
    getTypeList prog p = .ok (tys, p + (tys.length / 4 + 1)) := by
  have hloop : ∀ fuel pos, pos ≤ tys.length → tys.length < pos + fuel →
      getTypeListLoop prog p fuel pos (tys.take pos) = .ok (tys, p + (tys.length / 4 + 1)) := by
    intro fuel
    induction fuel with
    | zero => intro pos _ _; omega
    | succ fuel ih =>
      intro pos hpos hfuel
      unfold getTypeListLoop
      rw [typeCode_pack hn h hpos]
      dsimp only
      by_cases hend : pos = tys.length
      · rw [hend, List.getD_eq_getElem?_getD, List.getElem?_eq_none (Nat.le_refl _),
          List.take_length]
        rfl
      · have hlt : pos < tys.length := by omega
        obtain ⟨-, -, hne⟩ := hn.getD pos
        rw [if_neg (hne hlt)]
        refine bind_eq_ok.2 ⟨(), ?_, ?_⟩
        · rw [inRange_decide]
          unfold typeBufSz
          omega
        · have htake : tys.take pos ++ [tys.getD pos 0] = tys.take (pos + 1) := by
            rw [List.take_add_one, List.getD_eq_getElem?_getD, List.getElem?_eq_getElem hlt]
            rfl
          rw [htake]
          exact ih (pos + 1) hlt (by omega)
  exact hloop (typeBufSz + 1) 0 (Nat.zero_le _) (by unfold typeBufSz; omega)

theorem pack_length (tys : List Ty) : (pack tys).length = tys.length / 4 + 1 := by
  unfold pack
  rw [List.length_map, List.length_range]

-- ======== instructions

/-- An instruction as it can be written: the operands its token has and
no others, with types that have names. -/
structure Written (i : Sume.Instr) : Prop where
  arg : i.token.operand ≠ .int → i.arg = 0
  types : i.token.operand ≠ .types → i.params = [] ∧ i.locals = []
  params : Named i.params
  locals : Named i.locals

theorem named_words (h : TypeWords text tys) : Named tys := by
  induction h with
  | nil => exact fun t ht => by cases ht
  | cons hw _ _ ih =>
    intro t ht
    rcases List.mem_cons.1 ht with rfl | ht
    · exact hw.imp And.right And.right
    · exact ih t ht

theorem named_list (h : TypeList text tys) : Named tys := by
  obtain ⟨g, body, -, hw, -⟩ := h
  exact named_words hw

theorem written_of_renders (h : Renders ts text) : ∀ i ∈ ts, Written i := by
  have hnil : Named [] := fun t ht => by cases ht
  induction h with
  | done _ => exact fun i hi => by cases hi
  | plain ht _ _ _ ih =>
    intro i hi
    rcases List.mem_cons.1 hi with rfl | hi
    · exact ⟨fun _ => rfl, fun _ => ⟨rfl, rfl⟩, hnil, hnil⟩
    · exact ih i hi
  | int ht _ _ _ _ _ _ ih =>
    intro i hi
    rcases List.mem_cons.1 hi with rfl | hi
    · exact ⟨fun hne => absurd ht hne, fun _ => ⟨rfl, rfl⟩, hnil, hnil⟩
    · exact ih i hi
  | decl ht _ _ _ hp _ hl _ ih =>
    intro i hi
    rcases List.mem_cons.1 hi with rfl | hi
    · exact ⟨fun _ => rfl, fun hne => absurd ht hne, named_list hp, named_list hl⟩
    · exact ih i hi

/-- An encoded instruction is read back. -/
theorem instrAt_encode {rest : List Byte} (hw : Written i)
    (hps : i.params.length ≤ 64) (hls : i.locals.length ≤ 64)
    (hrest : i.token.operand = .int → rest ≠ []) (h : prog.drop p = encode i ++ rest) :
    instrAt prog p = .ok (i, p + (encode i).length) := by
  obtain ⟨t, w, ps, ls⟩ := i
  unfold encode at h ⊢
  unfold instrAt
  rw [head_of_drop h]
  dsimp only
  rw [ofByte_toByte]
  dsimp only at h hrest ⊢
  have htail := drop_cons h
  cases hop : t.operand with
  | none =>
    obtain rfl := hw.arg (by dsimp only; rw [hop]; decide)
    obtain ⟨rfl, rfl⟩ := hw.types (by dsimp only; rw [hop]; decide)
    rfl
  | int =>
    obtain ⟨hp, hl⟩ := hw.types (by dsimp only; rw [hop]; decide)
    obtain rfl : ps = [] := hp
    obtain rfl : ls = [] := hl
    rw [hop] at htail
    have htail : prog.drop (p + 1) = leBytes w ++ rest := htail
    have hbytes : ∀ j, j < 4 → prog.getD (p + 1 + j) 0 = byteOf w j := by
      intro j hj
      rw [List.getD_eq_getElem?_getD, getElem?_of_drop htail]
      interval_cases j <;> rfl
    have hlen := length_of_drop htail
    have hpos := List.length_pos_iff.2 (hrest hop)
    rw [List.length_append, leBytes_length] at hlen
    have hint : getInt prog (p + 1) = .ok (w, p + 1 + 4) := by
      unfold getInt
      rw [if_neg (by omega), show prog.getD (p + 1) 0 = _ from hbytes 0 (by decide),
        hbytes 1 (by decide), hbytes 2 (by decide), hbytes 3 (by decide), ofLe_byteOf]
    show (getInt prog (p + 1) >>= _) = _
    rw [hint]
    rfl
  | types =>
    obtain rfl : w = 0 := hw.arg (by dsimp only; rw [hop]; decide)
    rw [hop] at htail
    have htail : prog.drop (p + 1) = pack ps ++ pack ls ++ rest := htail
    have h1 : prog.drop (p + 1) = pack ps ++ (pack ls ++ rest) := by
      rw [htail, List.append_assoc]
    have h2 := drop_append h1
    rw [pack_length] at h2
    show (getTypeList prog (p + 1) >>= _) = _
    rw [getTypeList_pack hw.params hps h1]
    show (getTypeList prog (p + 1 + (ps.length / 4 + 1)) >>= _) = _
    rw [getTypeList_pack hw.locals hls h2]
    have hsize : p + 1 + (ps.length / 4 + 1) + (ls.length / 4 + 1)
        = p + (t.toByte :: (pack ps ++ pack ls)).length := by
      rw [List.length_cons, List.length_append, pack_length, pack_length]
      omega
    exact congrArg (fun n => Except.ok (_, n)) hsize

-- ======== programs

/-- What the tables of the passes have room for, in a list that can be
read to its end. -/
structure Encodable (ts : List Sume.Instr) : Prop where
  params : ∀ i ∈ ts, i.params.length ≤ 64
  locals : ∀ i ∈ ts, i.locals.length ≤ 64
  fns : (sigsOf ts).length ≤ 64
  types : ((sigsOf ts).map fun g => g.params.length + g.locals.length).sum ≤ 4096
  last : ∀ i, ts.getLast? = some i → i.token.operand ≠ .int

/-- The place of instruction `k` in the encoding. -/
def offset (ts : List Sume.Instr) (k : Nat) : Nat := (encodeAll (ts.take k)).length

theorem encode_ne_nil (i : Sume.Instr) : encode i ≠ [] := by
  unfold encode
  exact List.cons_ne_nil _ _

theorem encodeAll_cons (i : Sume.Instr) (is : List Sume.Instr) :
    encodeAll (i :: is) = encode i ++ encodeAll is := List.flatMap_cons

theorem drop_offset (ts : List Sume.Instr) (k : Nat) :
    (encodeAll ts).drop (offset ts k) = encodeAll (ts.drop k) := by
  have hsplit : encodeAll ts = encodeAll (ts.take k) ++ encodeAll (ts.drop k) := by
    unfold encodeAll
    rw [← List.flatMap_append, List.take_append_drop]
  unfold offset
  nth_rewrite 1 [hsplit]
  exact List.drop_left

theorem offset_succ (hi : ts[k]? = some i) :
    offset ts (k + 1) = offset ts k + (encode i).length := by
  unfold offset encodeAll
  rw [List.take_add_one, hi, Option.toList_some, List.flatMap_append, List.length_append,
    List.flatMap_singleton]

theorem offset_length (ts : List Sume.Instr) : offset ts ts.length = (encodeAll ts).length := by
  unfold offset
  rw [List.take_length]

/-- Every instruction is read back where its bytes are. -/
theorem instrAt_offset (hw : ∀ i ∈ ts, Written i) (he : Encodable ts) (hi : ts[k]? = some i) :
    instrAt (encodeAll ts) (offset ts k) = .ok (i, offset ts (k + 1)) := by
  have hmem := List.mem_of_getElem? hi
  obtain ⟨hk, hget⟩ := List.getElem?_eq_some_iff.1 hi
  have hdrop := drop_offset ts k
  rw [List.drop_eq_getElem_cons hk, hget, encodeAll_cons] at hdrop
  rw [offset_succ hi]
  refine instrAt_encode (hw i hmem) (he.params i hmem) (he.locals i hmem) (fun hop => ?_) hdrop
  -- an operand has another instruction behind it
  cases hrest : ts.drop (k + 1) with
  | nil =>
    have hlast : ts.getLast? = some i := by
      have hlen := List.drop_eq_nil_iff.1 hrest
      rw [List.getLast?_eq_getElem?, show ts.length - 1 = k by omega]
      exact hi
    exact absurd hop (he.last i hlast)
  | cons j is =>
    rw [encodeAll_cons]
    exact List.append_ne_nil_of_left_ne_nil (encode_ne_nil j) _

theorem scans_encodeAll (hw : ∀ i ∈ ts, Written i) (he : Encodable ts) :
    Scans (encodeAll ts) 0 ts := by
  have hall : ∀ n k, k + n = ts.length → Scans (encodeAll ts) (offset ts k) (ts.drop k) := by
    intro n
    induction n with
    | zero =>
      intro k hk
      obtain rfl : k = ts.length := by omega
      rw [List.drop_length, offset_length]
      exact .nil (Nat.le_refl _)
    | succ n ih =>
      intro k hk
      have hlt : k < ts.length := by omega
      have hi := List.getElem?_eq_getElem hlt
      have hlen := congrArg List.length (drop_offset ts k)
      rw [List.drop_eq_getElem_cons hlt, encodeAll_cons, List.length_drop,
        List.length_append] at hlen
      have hpos := List.length_pos_iff.2 (encode_ne_nil ts[k])
      rw [List.drop_eq_getElem_cons hlt]
      exact .cons (by omega) (instrAt_offset hw he hi) (ih (k + 1) (by omega))
  exact hall ts.length 0 (Nat.zero_add _)

-- ======== populate_fns

/-- The types of declared functions. -/
def typesOf (sigs : List Sig) : Nat :=
  (sigs.map fun g => g.params.length + g.locals.length).sum

theorem typesOf_append (a b : List Sig) : typesOf (a ++ b) = typesOf a + typesOf b := by
  unfold typesOf
  rw [List.map_append, List.sum_append]

/-- A declaration there is room for is recorded. -/
theorem addFn_ok {rt : Ty} {ps ls : List Ty} {q r : Nat} (hs : s.Free) (hnum : s.fnNum < 64)
    (hp : getTypeList prog s.place = .ok (ps, q)) (hl : getTypeList prog q = .ok (ls, r))
    (hroom : s.tab.heapPos + (ps.length + ls.length) ≤ 4096) : ∃ s', addFn prog rt s = .ok s'
      ∧ s'.tab.heapPos = s.tab.heapPos + (ps.length + ls.length) := by
  obtain ⟨rfl, hps, hq⟩ := getTypeList_found hp
  obtain ⟨rfl, hls, hr⟩ := getTypeList_found hl
  have hm := metAt_closed hq hr
  cases addFn_cases rt hs with
  | stored s' _ hs' _ _ _ hheap =>
    rw [hm] at hheap
    exact ⟨s', hs', hheap⟩
  | cut _ hend =>
    rw [hm] at hend
    cases hend
  | full _ hno =>
    rw [hm] at hno
    refine absurd (Room.cons hps (fun _ h => ?_) (room_nil hnum hroom)) hno
    cases h
    exact hls

/-- The variables of `populate_fns` after `k` instructions. -/
structure PopInv (prog : List Byte) (ts : List Sume.Instr) (k : Nat) (s : PopState) :
    Prop where
  scan : Scans prog s.place (ts.drop k)
  tab : TableRep s.tab (sigsOf (ts.take k))
  num : s.fnNum = (sigsOf (ts.take k)).length
  heap : s.tab.heapPos = typesOf (sigsOf (ts.take k))

theorem populateStep_ok (hfns : (sigsOf ts).length ≤ 64) (htypes : typesOf (sigsOf ts) ≤ 4096)
    (h : PopInv prog ts k s) (hi : ts[k]? = some i) :
    ∃ s', populateStep prog s = .ok s' ∧ PopInv prog ts (k + 1) s' := by
  obtain ⟨-, q, hin, hrest⟩ := h.scan.head hi
  obtain ⟨b, hb, ht, -, hint, hlists⟩ := instrAt_inv hin
  have htake : sigsOf (ts.take (k + 1)) = sigsOf (ts.take k) ++ sigsOf [i] := by
    rw [List.take_add_one, hi, sigsOf_append]
    rfl
  have hsplit : sigsOf ts = sigsOf (ts.take (k + 1)) ++ sigsOf (ts.drop (k + 1)) := by
    rw [← sigsOf_append, List.take_append_drop]
  obtain ⟨s', hs', hheap⟩ : ∃ s', populateStep prog s = .ok s'
      ∧ s'.tab.heapPos = s.tab.heapPos + typesOf (sigsOf [i]) := by
    unfold populateStep
    rw [hb]
    simp only [ht]
    have hplain : i.token.operand ≠ .types → typesOf (sigsOf [i]) = 0 := by
      intro hne
      rw [sigsOf_cons, if_neg (fun hd => hne ((operand_types _).2 hd))]
      rfl
    cases hop : i.token.operand with
    | none =>
      rw [hplain (by rw [hop]; decide)]
      exact ⟨_, rfl, rfl⟩
    | int =>
      rw [hplain (by rw [hop]; decide)]
      exact ⟨_, bind_eq_ok.2 ⟨_, hint hop, rfl⟩, rfl⟩
    | types =>
      obtain ⟨r, hps, hls⟩ := hlists hop
      have hone : sigsOf [i] = [⟨i.token.declRt, i.params, i.locals⟩] := by
        rw [sigsOf_cons, if_pos ((operand_types _).1 hop)]
        rfl
      have htyp : typesOf (sigsOf [i]) = i.params.length + i.locals.length := by
        rw [hone]
        rfl
      rw [htyp]
      rw [hsplit, htake, hone] at hfns htypes
      rw [typesOf_append, typesOf_append] at htypes
      simp only [List.length_append, List.length_singleton] at hfns
      have hmine : typesOf [⟨i.token.declRt, i.params, i.locals⟩]
          = i.params.length + i.locals.length := rfl
      have hnum := h.num
      have hheap := h.heap
      exact addFn_ok (s := { s with place := s.place + 1 })
        ⟨fun k hk => h.tab.zero k (hnum ▸ hk), by dsimp only; omega, by dsimp only; omega⟩
        (by dsimp only; omega) hps hls (by dsimp only; omega)
  obtain ⟨j, hj, hstep⟩ := populateStep_inv hs'
  obtain ⟨htab, hnum⟩ := hstep h.tab h.num
  have hplace := populateStep_reads s s' i q hs' hin
  rw [hin, ← hplace] at hj
  cases hj
  refine ⟨s', hs', ⟨?_, ?_, ?_, ?_⟩⟩
  · rw [hplace]
    exact hrest
  · rw [htake]
    exact htab
  · rw [htake]
    exact hnum
  · rw [htake, typesOf_append, hheap, h.heap]

/-- `populate_fns` finishes on the declarations there is room for. -/
theorem populateFns_ok (hsc : Scans prog 0 ts) (hfns : (sigsOf ts).length ≤ 64)
    (htypes : typesOf (sigsOf ts) ≤ 4096) :
    ∃ pop, populateFns prog FnTable.empty = .ok pop ∧ PopInv prog ts ts.length pop :=
  whileLt_tokens_ok (fun _ _ ht => ht.scan) (fun _ _ _ ht hi => populateStep_ok hfns htypes ht hi)
    ⟨hsc, tableRep_empty, rfl, rfl⟩ hsc.fuel

-- ======== the result

/-- Where the instructions of an encoding are. -/
theorem placeOf_encodeAll (hw : ∀ i ∈ ts, Written i) (he : Encodable ts) :
    ∀ k, k ≤ ts.length → placeOf (encodeAll ts) k = .ok (offset ts k) := by
  intro k
  induction k with
  | zero => exact fun _ => rfl
  | succ k ih =>
    intro hk
    exact placeOf_succ (ih (by omega)) (instrAt_offset hw he (List.getElem?_eq_getElem hk))

/-- What is assembled from any text of a list is read back as that list:
both passes step through exactly its instructions to the end of the
bytes, and their tables hold exactly its declarations. -/
theorem round_trip {text : List Byte} (hr : Renders ts text) (he : Encodable ts)
    (buf : Nat → Byte) :
    ∃ bytes pop fs, ToIr.parseSume text buf = .ok bytes
      ∧ populateFns bytes FnTable.empty = .ok pop ∧ asmPopulateFns bytes = .ok fs
      ∧ pop.place = bytes.length ∧ fs.place = bytes.length
      ∧ pop.fnNum = (sigsOf ts).length ∧ fs.fnNum = (sigsOf ts).length
      ∧ TableRep pop.tab (sigsOf ts)
      ∧ (∀ n g, (sigsOf ts)[n]? = some g → fs.fns n = Sig.info g 0)
      ∧ populateAt bytes ts.length = .ok pop ∧ asmPopulateAt bytes ts.length = .ok fs
      ∧ ∀ k i, ts[k]? = some i → ∃ s a, populateAt bytes k = .ok s
          ∧ asmPopulateAt bytes k = .ok a ∧ s.place = offset ts k ∧ a.place = offset ts k
          ∧ instrAt bytes (offset ts k) = .ok (i, offset ts (k + 1)) := by
  have hw := written_of_renders hr
  have hfit : ∀ i ∈ ts, FitsBuf i := by
    intro i hi
    have h1 := he.params i hi
    have h2 := he.locals i hi
    unfold FitsBuf ToIr.instrBufSz
    omega
  have hsc := scans_encodeAll hw he
  obtain ⟨pop, hpop, hinv⟩ := populateFns_ok hsc he.fns he.types
  obtain ⟨fs, hfs⟩ := asmPopulateFns_ok hsc he.fns
  obtain ⟨hpend, hpall⟩ := populateAt_inv hsc hpop
  obtain ⟨haend, haall⟩ := asmPopulateAt_inv hsc hfs
  -- both passes are where the instructions are
  have hpplace : ∀ {k s}, k ≤ ts.length → populateAt (encodeAll ts) k = .ok s →
      s.place = offset ts k := fun hk hs =>
    Except.ok.inj ((populateStep_reads.place hsc rfl hk hs).symm.trans
      (placeOf_encodeAll hw he _ hk))
  have haplace : ∀ {k a}, k ≤ ts.length → asmPopulateAt (encodeAll ts) k = .ok a →
      a.place = offset ts k := fun hk ha =>
    Except.ok.inj ((asmPopulateStep_reads.place hsc rfl hk ha).symm.trans
      (placeOf_encodeAll hw he _ hk))
  have hnum := hinv.num
  have htab := hinv.tab
  rw [List.take_length] at hnum htab
  refine ⟨_, pop, fs, parseSume_renders hr hfit buf, hpop, hfs,
    (hpplace (Nat.le_refl _) hpend).trans (offset_length ts),
    (haplace (Nat.le_refl _) haend).trans (offset_length ts), hnum, ?_, htab,
    fun n g hg => asmPopulateFns_sigs hsc hfs hg, hpend, haend, fun k i hi => ?_⟩
  · obtain ⟨a, ha, hainv⟩ := haall ts.length (Nat.le_refl _)
    obtain rfl : fs = a := Except.ok.inj (haend.symm.trans ha)
    rw [hainv.num, declsBefore_length]
  · have hk := Nat.le_of_lt (lt_length hi)
    obtain ⟨s, hs, -⟩ := hpall k hk
    obtain ⟨a, ha, -⟩ := haall k hk
    exact ⟨s, a, hs, ha, hpplace hk hs, haplace hk ha, instrAt_offset hw he hi⟩

theorem round_trip_declfn :
    ∃ bytes pop, ToIr.parseSume (ToIr.chars "i.declfn (int)(flt int) trap") (fun _ => 0xff)
        = .ok bytes
      ∧ populateFns bytes FnTable.empty = .ok pop ∧ pop.place = bytes.length
      ∧ TableRep pop.tab [⟨1, [1], [2, 1]⟩] := by
  have hspace : Gap (ToIr.chars " ") := .ws rfl .nil
  have htrap : Renders [⟨.trap, 0, [], []⟩] (ToIr.chars " trap") :=
    .plain (t := .trap) rfl hspace (fun c hc => by cases hc) (.done (Or.inl .nil))
  have hps : TypeList (ToIr.chars "(int)") [1] :=
    ⟨[], ToIr.chars "int", .nil, .cons (Or.inl ⟨rfl, rfl⟩) .nil .nil, rfl⟩
  have hls : TypeList (ToIr.chars "(flt int)") [2, 1] :=
    ⟨[], ToIr.chars "flt int", .nil,
      .cons (Or.inr ⟨rfl, rfl⟩) hspace (.cons (Or.inl ⟨rfl, rfl⟩) .nil .nil), rfl⟩
  have hr := Renders.decl (t := .iDeclfn) rfl .nil hspace (by decide) hps .nil hls htrap
  obtain ⟨bytes, pop, -, hbytes, hpop, -, hplace, -, -, -, htab, -⟩ :=
    round_trip hr ⟨by decide, by decide, by decide, by decide, by decide⟩ (fun _ => 0xff)
  exact ⟨bytes, pop, hbytes, hpop, hplace, htab⟩

/-- From the text to the verdict: what is assembled from any text of a list
is accepted exactly if the list is well typed. -/
theorem assembled_accepted_iff {text : List Byte} (hr : Renders ts text) (he : Encodable ts)
    (buf : Nat → Byte) (slot : Int) : ∃ bytes, ToIr.parseSume text buf = .ok bytes
      ∧ (Accepts bytes slot ↔ WellTyped slot ts) := by
  have hsc := scans_encodeAll (written_of_renders hr) he
  obtain ⟨pop, hpop, -⟩ := populateFns_ok hsc he.fns he.types
  refine ⟨_, parseSume_renders hr (fun i hi => ?_) buf, fun h => ?_, fun h => h.accepts hpop hsc⟩
  · have h1 := he.params i hi
    have h2 := he.locals i hi
    unfold FitsBuf ToIr.instrBufSz
    omega
  · obtain ⟨us, hacc⟩ := h.accepted
    obtain rfl := hacc.scans.unique hsc
    exact hacc.wellTyped

theorem assembled_accepted_iff_trap :
    ∃ bytes, ToIr.parseSume (ToIr.chars "v.declfn ()() trap") (fun _ => 0xff) = .ok bytes
      ∧ (Accepts bytes 0 ↔ WellTyped 0 [⟨.vDeclfn, 0, [], []⟩, ⟨.trap, 0, [], []⟩]) := by
  have hspace : Gap (ToIr.chars " ") := .ws rfl .nil
  have htrap : Renders [⟨.trap, 0, [], []⟩] (ToIr.chars " trap") :=
    .plain (t := .trap) rfl hspace (fun c hc => by cases hc) (.done (Or.inl .nil))
  have hnone : TypeList (ToIr.chars "()") [] := ⟨[], [], .nil, .nil, rfl⟩
  exact assembled_accepted_iff
    (.decl (t := .vDeclfn) rfl .nil hspace (by decide) hnone .nil hnone htrap)
    ⟨by decide, by decide, by decide, by decide, by decide⟩ _ 0

end Xv6Sume32.Asm
