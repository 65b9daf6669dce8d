import CodeReloc.Proofs.Assembler.Recorded

set_option autoImplicit false

/-!
# Records that are refused

An operation that only records asks for nothing but the gap. When it is refused there is less room
than that, and there will never be more: the assembler is frozen and cannot be completed. So a
completed descriptor has every record that it was asked for, although a comment that is refused has
been put into the table already, and positions that are refused count as written.

Main statement: `attemptAll_exhausted`.
-/

namespace CodeReloc

open Assembler

variable {a a' : Assembler} {operation : Operation} {answer : Except LimitExceeded Unit}

namespace Operation

/-- **An operation that only records is refused only where the gap is not free.** -/
theorem stuck_of_refused (ha : a.Intact) (hrecording : operation.isRecording = true)
    (h : Ends operation.run a answer a') (hrefused : answer ≠ .ok ()) : a'.Stuck 0 := by
  obtain ⟨-, houtcome⟩ := run_outcome ha h
  cases houtcome with
  | done => exact absurd rfl hrefused
  | @refused done rest x n e a' hsplit hcarries hneed hstuck =>
    have hx : x ∈ operation.effects a := by
      rw [hsplit]
      exact List.mem_append_right done List.mem_cons_self
    rw [need_of_mem_effects hrecording hx hneed] at hstuck
    exact hstuck

end Operation

/-- **All operations that only record have been answered**, unless the assembler is stuck. -/
theorem answered_or_stuck {options : AssemblerOptions} {operations : List Operation}
    {attempts : List Attempt}
    (h : Operation.attemptAll operations (.new options) = .ok (attempts, a)) :
    a.Intact ∧ (a.Stuck 0 ∨ ∀ attempt ∈ attempts, attempt.operation.isRecording = true →
      attempt.answer = .ok ()) := by
  refine Stuck.attemptAll_cases (P := fun attempts _ => ∀ attempt ∈ attempts,
    attempt.operation.isRecording = true → attempt.answer = .ok ()) ?_ (fun _ h => nomatch h) h
  intro before mid operation answer a' _ hmid hanswered hrun
  -- the first refusal is where it gets stuck
  by_cases hrefused : operation.isRecording = true ∧ answer ≠ .ok ()
  · exact Or.inl (Operation.stuck_of_refused hmid hrefused.1 hrun hrefused.2)
  · right
    intro attempt hattempt hrecording
    rcases List.mem_append.1 hattempt with hbefore | hlast
    · exact hanswered attempt hbefore hrecording
    · rw [List.mem_singleton.1 hlast] at hrecording ⊢
      exact Classical.byContradiction fun hanswer => hrefused ⟨hrecording, hanswer⟩

/-! ## Comments -/

/-- The data of the comment records among others. -/
def commentData (records : List Record) : List Int64 :=
  (records.filter (·.mode == .comment)).map Record.data

theorem commentData_append (records more : List Record) :
    commentData (records ++ more) = commentData records ++ commentData more := by
  rw [commentData, List.filter_append, List.map_append]
  rfl

/-- The indices of a comment table. -/
def commentIndices (comments : Array String) : List Int64 :=
  (List.range comments.size).map Int64.ofNat

theorem commentIndices_push (comments : Array String) (text : String) :
    commentIndices (comments.push text) =
      commentIndices comments ++ [Int64.ofNat comments.size] := by
  rw [commentIndices, Array.size_push, List.range_succ, List.map_append]
  rfl

/-- Only adding a comment changes the table. -/
theorem Contents.comments_afterAll {c c' : Contents} {xs : List Effect}
    (hxs : ∀ text, .addComment text ∉ xs) (h : c.afterAll xs = .ok c') :
    c'.comments = c.comments := by
  refine afterAll_induction (P := fun mid => mid.comments = c.comments) ?_ rfl h
  intro x hx mid next hmid hafter
  rw [← hmid]
  cases x with
  | record mode data =>
    obtain ⟨_, -, hafter⟩ := bind_eq_ok.1 hafter
    cases hafter
    rfl
  | addComment text => exact absurd hx (hxs text)
  | keepGap | emit | setPositions | overwrite =>
    cases hafter
    rfl

/-- The comment records of the stream are the indices of the table. -/
def Commented (a : Assembler) : Prop :=
  ∃ records, a.contents.Holds records ∧ commentData records = commentIndices a.comments

/-- What a comment comes to where comments are kept. -/
theorem Operation.effects_comment (h : a.options.comments = true) (text : String) :
    (comment text).effects a =
      [.addComment text, .record .comment (Int64.ofNat a.comments.size)] := by
  rw [effects, if_pos h]
  rfl

/-- A comment is recorded in the gap. -/
theorem Operation.comment_gives (text : String) (ha : a.Intact)
    (hkept : a.options.comments = true) (hroom : a.HasRoom gap) {bytes : List UInt8}
    {encoder : Encoder}
    (hcall : a.writer.encoder.call
      (.write ⟨UInt64.ofNat a.pc, .comment, Int64.ofNat a.comments.size⟩) = .ok (bytes, encoder)) :
    ∃ a', Gives (comment text).run a () a' ∧ Carries a ((comment text).effects a) a' ∧
      a'.contents.code = a.contents.code ∧ a'.contents.stream = a.contents.stream ++ bytes := by
  obtain ⟨mid, hadd, hadded, hcontents⟩ := Effect.perform_gives (x := .addComment text) ha
    (fun n hneed => nomatch hneed) rfl
  have hpc : mid.contents.code.length = a.pc := by
    rw [hcontents]
    exact ha.length_code
  have hfree : ∀ n, (Effect.record .comment (Int64.ofNat a.comments.size)).need = some n →
      mid.HasRoom (n + gap) := by
    rintro _ ⟨⟩
    cases hadd
    rw [Nat.zero_add]
    exact hroom
  have hafter : mid.contents.after (.record .comment (Int64.ofNat a.comments.size)) =
      .ok (mid.contents.append bytes encoder) := by
    apply Contents.after_record
    rw [hpc, hcontents]
    exact hcall
  obtain ⟨a', hrecord, hrecorded, hlast⟩ := Effect.perform_gives hadded.intact hfree hafter
  refine ⟨a', ?_, ?_, ?_, ?_⟩
  · refine ends_of_effects rfl ?_
    rw [effects_comment hkept]
    exact gives_bind.2 ⟨(), mid, hadd, gives_bind.2 ⟨(), a', hrecord, gives_pure.2 ⟨rfl, rfl⟩⟩⟩
  · rw [effects_comment hkept]
    exact hadded.trans hrecorded
  · rw [hlast, hcontents]
    rfl
  · rw [hlast, hcontents]
    rfl

namespace Commented

theorem new (options : AssemblerOptions) : Commented (.new options) :=
  ⟨[], (Reflects.new options).stream_eq, rfl⟩

/-- Effects without comments. -/
theorem of_carries (ha : Commented a) {xs : List Effect} (hadd : ∀ text, .addComment text ∉ xs)
    (hrecord : ∀ data, .record .comment data ∉ xs) (h : Carries a xs a') : Commented a' := by
  obtain ⟨records, hholds, hdata⟩ := ha
  refine ⟨_, hholds.afterAll h.after_eq, ?_⟩
  have hnone : commentData (recordsOf a.contents.code.length xs) = [] := by
    rw [commentData, filter_recordsOf hrecord, List.map_nil]
  have hcomments : a'.comments = a.comments := Contents.comments_afterAll hadd h.after_eq
  rw [commentData_append, hnone, List.append_nil, hdata, hcomments]

/-- A comment that is not refused. -/
theorem comment (ha : Commented a) {text : String} (h : Carries a
    (.addComment text :: recordEffects .comment (Int64.ofNat a.comments.size)) a') :
    Commented a' := by
  obtain ⟨records, hholds, hdata⟩ := ha
  refine ⟨_, hholds.afterAll h.after_eq, ?_⟩
  -- the record carries the size of the table before the text was put in
  obtain ⟨mid, hadd, hrecord⟩ := Contents.afterAll_cons_eq_ok.1 h.after_eq
  cases hadd
  have hcomments : a'.comments = a.comments.push text := by
    refine Contents.comments_afterAll ?_ hrecord
    intro other hother
    cases (mem_recordEffects.1 hother).2
  rw [commentData_append, hdata, hcomments, commentIndices_push]
  rfl

end Commented

/-- **Whatever an operation ends in, the comment records are the indices of the table**, or else the
assembler is stuck. -/
theorem Commented.run (ha : a.Intact) (h : Commented a)
    (hrecord : ∀ data, operation ≠ .record .comment data)
    (hrun : Ends operation.run a answer a') : a'.Stuck 0 ∨ Commented a' := by
  by_cases hcomment : ∃ text, operation = .comment text
  · obtain ⟨text, rfl⟩ := hcomment
    by_cases hrefused : answer = .ok ()
    · right
      obtain ⟨-, houtcome⟩ := Operation.run_outcome ha hrun
      cases houtcome with
      | refused => cases hrefused
      | done hcarries =>
        rw [Operation.effects] at hcarries
        split at hcarries
        · exact h.comment hcarries
        · exact h.of_carries (fun _ => List.not_mem_nil) (fun _ => List.not_mem_nil) hcarries
    · exact Or.inl (Operation.stuck_of_refused ha rfl hrun hrefused)
  · right
    obtain ⟨hcontract, houtcome⟩ := Operation.run_outcome ha hrun
    obtain ⟨done, hdone, hcarries⟩ := houtcome.carries
    refine h.of_carries ?_ ?_ hcarries
    · intro text htext
      cases Operation.makes_of_mem_effects (hdone.subset htext) with
      | addComment _ hoperation => exact hcomment ⟨text, hoperation⟩
    · have hown : .comment ∉ operation.ownModes := by
        cases operation with
        | comment text => exact absurd ⟨text, rfl⟩ hcomment
        | _ => exact of_decide_eq_true rfl
      intro data hdata
      exact Operation.not_mem_modes rfl hrecord hown hcontract
        (Operation.mode_mem_modes (hdone.subset hdata))

/-- The comment records of a completed descriptor are the indices of its table. -/
theorem Commented.complete (ha : a.Intact) (h : Commented a) {d : Descriptor}
    (hcomplete : Gives Assembler.complete a d a') :
    ∃ found, d.walk .all = ⟨found, none⟩ ∧
      commentData found.toList = commentIndices d.comments := by
  obtain ⟨records, hholds, hdata⟩ := h
  have hmode : Mode.comment.isPosition = false := rfl
  obtain ⟨found, hwalk, hfound⟩ := ha.complete_found hholds hcomplete hmode
  obtain ⟨roomy, hcarries, -, hcut⟩ := ha.complete_inv hcomplete
  have hcomments : roomy.comments = a.comments := by
    refine Contents.comments_afterAll ?_ hcarries.after_eq
    intro text htext
    rcases List.mem_append.1 htext with hwrite | hkeep
    · cases Operation.makes_of_mem_effects hwrite with
      | addComment _ hoperation => cases hoperation
    · cases List.mem_singleton.1 hkeep
  refine ⟨found, hwalk, ?_⟩
  rw [hcut.comments_eq, hcomments, ← hdata, commentData, commentData, hfound, List.map_map]
  apply List.map_congr_left
  intro r hr
  -- what a comment carries is a pointer and reads back unchanged
  have hcomment : r.mode = .comment := eq_of_beq (List.mem_filter.1 hr).2
  simp only [Function.comp_apply, Record.readBack, hcomment]

/-! ## Whole runs -/

/-- **No record gets lost on the way to a descriptor.** Where completing answers, every operation
that only records has been answered. Once one of them has been refused, instructions and stream stay
where they are and completing is refused. So the comment records of a descriptor are the indices of
its table, in order. -/
theorem attemptAll_exhausted (options : AssemblerOptions) (operations : List Operation)
    {attempts : List Attempt}
    (h : Operation.attemptAll operations (.new options) = .ok (attempts, a)) :
    (∀ d last, Gives Assembler.complete a d last →
      ∀ attempt ∈ attempts, attempt.operation.isRecording = true → attempt.answer = .ok ()) ∧
    (∀ attempt ∈ attempts, attempt.operation.isRecording = true → attempt.answer ≠ .ok () →
      (∀ later more a', Operation.attemptAll later a = .ok (more, a') →
        a'.pc = a.pc ∧ a'.buffer.size = a.buffer.size ∧
          a'.contents.stream = a.contents.stream) ∧
      ∃ e last, Ends Assembler.complete a (.error e) last) ∧
    ((∀ operation ∈ operations, ∀ data, operation ≠ .record .comment data) →
      ∀ d last, Gives Assembler.complete a d last →
        ∃ found, d.walk .all = ⟨found, none⟩ ∧
          (found.toList.filter (·.mode == .comment)).map Record.data =
            (List.range d.comments.size).map Int64.ofNat) := by
  obtain ⟨ha, hanswered⟩ := answered_or_stuck h
  refine ⟨?_, ?_, ?_⟩
  · intro d last hcomplete
    rcases hanswered with hstuck | hanswered
    · exact (hstuck.not_complete ha hcomplete).elim
    · exact hanswered
  · intro attempt hattempt hrecording hrefused
    rcases hanswered with hstuck | hanswered
    · refine ⟨?_, hstuck.complete_ends ha⟩
      intro later more a' hlater
      have hfrozen := hstuck.attemptAll_frozen ha hlater
      exact ⟨hfrozen.pc_eq, hfrozen.size_eq, hfrozen.stream_eq⟩
    · exact absurd (hanswered attempt hattempt hrecording) hrefused
  · intro hrecords d last hcomplete
    have hcommented : a.Intact ∧ (a.Stuck 0 ∨ Commented a) := by
      refine Stuck.attemptAll_cases (P := fun _ => Commented) ?_ (.new options) h
      intro _ mid operation answer a' hmem hmid hcommented hrun
      exact hcommented.run hmid (hrecords operation hmem) hrun
    rcases hcommented.2 with hstuck | hcommented
    · exact (hstuck.not_complete ha hcomplete).elim
    · exact hcommented.complete ha hcomplete

/-- The second of two comments is refused. It has been put into the table. -/
theorem attemptAll_exhausted_comment :
    ∃ attempts e a,
      Operation.attemptAll [.emit (copies 4064 0), .comment "a", .comment "b"]
          (.new ⟨4096, 4096, true, false, false⟩) = .ok (attempts, a) ∧
      attempts.map Attempt.answer = [.ok (), .ok (), .error e] ∧
      (∀ later more a', Operation.attemptAll later a = .ok (more, a') →
        a'.pc = a.pc ∧ a'.buffer.size = a.buffer.size ∧
          a'.contents.stream = a.contents.stream) ∧
      ∃ e last, Ends Assembler.complete a (.error e) last := by
  -- behind the instructions the gap is free and nothing else
  obtain ⟨a, hemit, ha, hfull, hpc, hsize, hcontents⟩ := emit_new ⟨4096, 4096, true, false, false⟩
    (size_copies 4064 0) rfl (by decide) (by decide)
  have hcode := ha.length_code.trans hpc
  have hkept : a.options.comments = true := congrArg (·.options.comments) hcontents
  have hempty : a.comments.size = 0 := congrArg (·.comments.size) hcontents
  have hencoder : a.writer.encoder = .start := congrArg Contents.encoder hcontents
  have hroom : a.HasRoom gap := by
    rw [ha.hasRoom_iff, hcode, hsize, hcontents]
    decide
  have hbytes : (Encoder.start.call (.write ⟨UInt64.ofNat 4064, .comment, 0⟩) >>= fun called =>
      .ok called.1.length) = .ok 12 := by
    decide +kernel
  obtain ⟨⟨bytes, encoder⟩, hcall, hend⟩ := bind_eq_ok.1 hbytes
  have hlength : bytes.length = 12 := Except.ok.inj hend
  obtain ⟨mid, hfirst, hcarries, hcode', hstream⟩ :=
    Operation.comment_gives "a" ha hkept hroom (by
      rw [hpc, hempty, hencoder]
      exact hcall)
  -- the first comment takes up a part of it
  have hstuck : mid.Stuck 0 := by
    refine ⟨hcarries.grown.full_of_full hfull, ?_⟩
    rw [hcarries.intact.hasRoom_iff, hcarries.grown.full hfull, hsize, hcode', hcode, hstream,
      hcontents, List.nil_append, hlength]
    decide
  have hkept' : mid.options.comments = true := by
    rw [hcarries.grown.options_eq]
    exact hkept
  obtain ⟨e, last, hsecond⟩ := hstuck.run_ends hcarries.intact (.comment "b") rfl (by
    rw [Operation.effects_comment hkept']
    exact ⟨_, List.mem_cons_of_mem _ List.mem_cons_self, Option.some_ne_none 0⟩)
  have hrun : Operation.attemptAll [.emit (copies 4064 0), .comment "a", .comment "b"]
      (.new ⟨4096, 4096, true, false, false⟩) =
        .ok ([⟨0, .emit (copies 4064 0), .ok ()⟩, ⟨a.pc, .comment "a", .ok ()⟩,
          ⟨mid.pc, .comment "b", .error e⟩], last) := by
    refine Operation.attemptAll_cons_eq_ok.2 ⟨.ok (), a, _, hemit, ?_, rfl⟩
    refine Operation.attemptAll_cons_eq_ok.2 ⟨.ok (), mid, _, hfirst, ?_, rfl⟩
    exact Operation.attemptAll_cons_eq_ok.2 ⟨.error e, last, [], hsecond, rfl, rfl⟩
  obtain ⟨-, hexhausted, -⟩ := attemptAll_exhausted _ _ hrun
  obtain ⟨hfrozen, hcomplete⟩ :=
    hexhausted ⟨mid.pc, .comment "b", .error e⟩ (by simp) rfl (fun h => nomatch h)
  exact ⟨_, e, last, hrun, rfl, hfrozen, hcomplete⟩

end CodeReloc
