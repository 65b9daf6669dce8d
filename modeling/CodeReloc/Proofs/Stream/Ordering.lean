import CodeReloc.Proofs.Stream.Moving

set_option autoImplicit false

/-!
# Places in order

Whatever the bytes are, reading them uses them up and never leads back. An item takes one byte at
least and is one record at most, and what it finds lies at the place that it leads to, so the places
of a reading are in order from its start on (`Cursor.pairwise_trace`) and there are no more of them
than bytes (`Cursor.length_trace_le`). A reader that goes from record to record has come to an end
by then: it is done, or it has met a fault. Once it is done it stays where it is.

Main statement: `walkStream_ordered`.
-/

namespace CodeReloc

/-- Numbers in order stay so behind one that is not greater than the first of them. -/
theorem pairwise_le_cons {a b : UInt64} {places : List UInt64} (hab : a ≤ b)
    (h : (b :: places).Pairwise (· ≤ ·)) : (a :: b :: places).Pairwise (· ≤ ·) := by
  refine h.cons fun place hplace => ?_
  rcases List.mem_cons.1 hplace with rfl | hlater
  · exact hab
  · exact UInt64.le_trans hab (List.rel_of_pairwise_cons h hlater)

namespace Cursor

/-! ## Items -/

/-- What an item finds lies where the item leads to. -/
theorem Strides.pc_found {f : UInt64 → Except Fault (Option Record × Cursor)} (hf : Strides f)
    {pc : UInt64} {found : Option Record} {c' : Cursor} (h : f pc = .ok (found, c')) :
    ∀ r ∈ found, r.pc = c'.pc := by
  cases hf with
  | fault => cases h
  | @found n x hx =>
    obtain ⟨q, -, h⟩ := bind_eq_ok.1 h
    cases x with
    | error fault => cases h
    | ok answer =>
      cases h
      intro r hr
      obtain ⟨-, -, rfl⟩ := Option.map_eq_some_iff.1 hr
      rfl

theorem pc_found_of_item {c c' : Cursor} {first : UInt8} {found : Option Record}
    (h : item .all c first = .ok (found, c')) : ∀ r ∈ found, r.pc = c'.pc :=
  (item_strides c first).pc_found h

/-! ## Whole readings -/

/-- **The places of a reading of everything are in order**, from the place on where it begins. -/
theorem pairwise_trace (c : Cursor) :
    (c.pc :: (trace .all c).records.map Record.pc).Pairwise (· ≤ ·) := by
  fun_induction trace .all c with
  | case1 c hc => exact List.pairwise_singleton _ _
  | case2 c first rest hc fault hitem => exact List.pairwise_singleton _ _
  | case3 c first rest hc found c' hitem bound ih =>
    have hle : c.pc ≤ c'.pc :=
      UInt64.le_iff_toNat_le.2 (pc_le_of_item (c := { c with rest := rest }) hitem)
    have hplaces := pairwise_le_cons hle ih
    cases found with
    | none =>
      -- a jump finds nothing, and the place that it leads to is not listed
      exact hplaces.sublist ((List.sublist_cons_self _ _).cons_cons _)
    | some r =>
      have hfound : r.pc = c'.pc := pc_found_of_item hitem r rfl
      change (c.pc :: r.pc :: (trace .all c').records.map Record.pc).Pairwise (· ≤ ·)
      rw [hfound]
      exact hplaces

/-- The same with a mask. -/
theorem pairwise_trace_mask (mask : Mask) (c : Cursor) :
    (c.pc :: (trace mask c).records.map Record.pc).Pairwise (· ≤ ·) := by
  rw [trace_mask]
  exact c.pairwise_trace.sublist ((List.filter_sublist.map Record.pc).cons_cons _)

/-- **A reading finds at most one record for each byte.** -/
theorem length_trace_le (mask : Mask) (c : Cursor) :
    (trace mask c).records.length ≤ c.rest.length := by
  fun_induction trace mask c with
  | case1 c hc => exact Nat.zero_le _
  | case2 c first rest hc fault hitem => exact Nat.zero_le _
  | case3 c first rest hc found c' hitem bound ih =>
    have hfound : found.toList.length ≤ 1 := by cases found <;> simp
    rw [Trace.after, List.length_append]
    omega

end Cursor

/-! ## Steps of a reader -/

/-- The end that a walk comes to: nothing more to stand on, or a fault. -/
def Walk.ending (w : Walk) : Except Fault (Option Record) :=
  match w.stopped with
  | none => .ok none
  | some fault => .error fault

/-- A reader stands on the records of its walk, one after the other, and then is at its end. -/
theorem Walk.at_eq (w : Walk) (n : Nat) :
    w.at n = if h : n < w.records.size then .ok (some w.records[n]) else w.ending := by
  unfold Walk.at Trace.at
  simp only [toTrace, Array.getElem?_toList]
  split
  · rename_i hrecord
    obtain ⟨hn, rfl⟩ := Array.getElem?_eq_some_iff.1 hrecord
    rw [dif_pos hn]
  · rename_i hnone hstopped
    rw [dif_neg (Nat.not_lt.2 (Array.getElem?_eq_none_iff.1 hnone)), ending, hstopped]
  · rename_i fault hnone hstopped
    rw [dif_neg (Nat.not_lt.2 (Array.getElem?_eq_none_iff.1 hnone)), ending, hstopped]

namespace Reader

variable {r : Reader}

theorem advance_of_done (h : r.done = true) : r.advance = .ok r := if_pos h

/-- A reader that is done stays where it is. -/
theorem advances_of_done (h : r.done = true) (n : Nat) : r.advances n = .ok r := by
  induction n with
  | zero => rfl
  | succ n ih =>
    rw [advances, advance_of_done h]
    exact ih

theorem next_of_done (h : r.done = true) : r.next = .ok (none, r) := by
  rw [next, advance_of_done h, Option.isNone_iff_eq_none.1 h]
  rfl

end Reader

/-- **Every walk comes to its end, with its places in order.** On any bytes, from any start and with
any mask, a reader stands on at most as many records as there are bytes, one after the other, and is
then at its end: it is done, or it has met a fault. No record lies before the start or before the
record in front of it. A reader that is done stays where it is, however often it is asked to go on,
and returns nothing. -/
theorem walkStream_ordered (stream : ByteArray) (pc : UInt64) (mask : Mask) :
    (walkStream stream pc mask none).records.size ≤ stream.size ∧
      (∀ n, (Reader.start stream pc mask none >>= Reader.advances n).map Reader.current =
        if h : n < (walkStream stream pc mask none).records.size then
          .ok (some (walkStream stream pc mask none).records[n])
        else (walkStream stream pc mask none).ending) ∧
      (pc :: (walkStream stream pc mask none).records.toList.map Record.pc).Pairwise (· ≤ ·) ∧
      ∀ n r, Reader.start stream pc mask none >>= Reader.advances n = .ok r → r.done = true →
        (∀ k, r.advances k = .ok r) ∧ r.next = .ok (none, r) := by
  have htrace := toTrace_walkStream_looked stream pc mask none
  rw [Reader.closing_none, Option.toList_none, Trace.closedBy_nil] at htrace
  generalize hrest : (if mask.isEmpty then [] else (bytesOf stream).reverse) = rest at htrace
  have hrecords : (walkStream stream pc mask none).records.toList =
      (Cursor.trace mask ⟨rest, pc, 0, 0⟩).records := congrArg Trace.records htrace
  refine ⟨?_, ?_, ?_, ?_⟩
  · have hbytes : rest.length ≤ stream.size := by
      rw [← hrest, ← length_bytesOf]
      split
      · exact Nat.zero_le _
      · exact Nat.le_of_eq List.length_reverse
    rw [← Array.length_toList, hrecords]
    exact Nat.le_trans (Cursor.length_trace_le mask _) hbytes
  · intro n
    rw [Reader.advances_start, Walk.at_eq]
  · rw [hrecords]
    exact Cursor.pairwise_trace_mask mask ⟨rest, pc, 0, 0⟩
  · intro n r _ hdone
    exact ⟨Reader.advances_of_done hdone, Reader.next_of_done hdone⟩

end CodeReloc
