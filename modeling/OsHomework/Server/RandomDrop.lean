import OsHomework.Server.Accounting

/-!
# The random drop policy

At overload with requests waiting, policy `random` draws an index below the
current length, takes the request there out and closes it, for half of the
requests, rounded up. The indices come from a range that shrinks with every
round, so which requests go depends on all the draws together; how many go, and
that the others keep their order, does not.

`drawn` is the loop on the list alone: the requests in the order they are taken
out, and those that stay. `dropRandom_eq` says that the loop of the server does
exactly this and closes the descriptors of the first list, one `Close` for each.
-/

namespace OsHomework
namespace Server

variable {cfg : Config} {s : State cfg}

/-- `k` rounds of the loop on a list, the next one drawing `rand i`: the requests
taken out, in order, and what is left. -/
def drawn (rand : ℕ → ℕ) : ℕ → ℕ → List Req → List Req × List Req
  | _, 0, rs => ([], rs)
  | i, k + 1, rs =>
    match rs[rand i % rs.length]? with
    | none => ([], rs)
    | some r =>
      let (out, kept) := drawn rand (i + 1) k (rs.eraseIdx (rand i % rs.length))
      (r :: out, kept)

/-- One `Close` after another. -/
def State.closeAll (fds : List Int) (s : State cfg) : State cfg :=
  fds.foldl (fun s fd => s.closeFd fd) s

/-! ### The loop on the list -/

/-- What is taken out and what is left is what there was; what is left keeps its order. -/
theorem drawn_spec (rand : ℕ → ℕ) (i k : ℕ) (rs : List Req) (h : k ≤ rs.length) :
    ((drawn rand i k rs).1 ++ (drawn rand i k rs).2).Perm rs ∧
      (drawn rand i k rs).1.length = k ∧ (drawn rand i k rs).2.Sublist rs := by
  induction k generalizing i rs with
  | zero => exact ⟨List.Perm.refl _, rfl, List.Sublist.refl _⟩
  | succ k ih =>
    have hpos : 0 < rs.length := by omega
    have hlt : rand i % rs.length < rs.length := Nat.mod_lt _ hpos
    have hlen := List.length_eraseIdx_of_lt hlt
    obtain ⟨hperm, hout, hsub⟩ := ih (i + 1) (rs.eraseIdx (rand i % rs.length)) (by omega)
    unfold drawn
    rw [List.getElem?_eq_getElem hlt]
    refine ⟨?_, ?_, hsub.trans (List.eraseIdx_sublist _ _)⟩
    · exact (hperm.cons _).trans (List.getElem_cons_eraseIdx_perm hlt)
    · exact congrArg Nat.succ hout

/-! ### The loop of the server -/

theorem closeAll_pendingReqs (fds : List Int) (s : State cfg) :
    (s.closeAll fds).pendingReqs = s.pendingReqs := by
  induction fds generalizing s with
  | nil => rfl
  | cons fd fds ih => exact ih (s.closeFd fd)

/-- What has been closed is no longer open. -/
theorem closeAll_openFds (fds : List Int) (s : State cfg) (x : Int) :
    (s.closeAll fds).openFds x = if x ∈ fds then none else s.openFds x := by
  induction fds generalizing s with
  | nil => exact (if_neg List.not_mem_nil).symm
  | cons fd fds ih =>
    have hfirst : ((s.closeFd fd).closeAll fds).openFds x
        = if x ∈ fds then none else Function.update s.openFds fd none x := ih (s.closeFd fd)
    change ((s.closeFd fd).closeAll fds).openFds x = _
    rw [hfirst]
    by_cases hx : x = fd
    · subst hx
      simp
    · simp [hx]

/-- Each close of a different number shows the connection that was open there. -/
theorem closeAll_log {fds : List Int} (hnodup : fds.Nodup) (s : State cfg) :
    (s.closeAll fds).log = s.log ++ fds.map fun fd => .closed (s.openFds fd) := by
  induction fds generalizing s with
  | nil => exact (List.append_nil _).symm
  | cons fd fds ih =>
    obtain ⟨hfd, hnodup⟩ := List.nodup_cons.mp hnodup
    -- the first close leaves the other numbers alone
    have hsame : ∀ x ∈ fds, Event.closed ((s.closeFd fd).openFds x) = .closed (s.openFds x) := by
      intro x hx
      have hne : x ≠ fd := fun heq => hfd (heq ▸ hx)
      exact congrArg Event.closed (Function.update_of_ne hne _ _)
    change ((s.closeFd fd).closeAll fds).log = _
    rw [ih hnodup (s.closeFd fd), List.map_congr_left hsame]
    change s.log ++ [.closed (s.openFds fd)] ++ _ = _
    rw [List.append_assoc]
    rfl

/-- The loop takes out what `drawn` says and closes it, in this order. -/
theorem dropRandom_eq (rand : ℕ → ℕ) (i k : ℕ) (s : State cfg) :
    s.dropRandom rand i k =
      State.closeAll ((drawn rand i k s.pendingReqs.reqs).1.map Req.data)
        { s with
          pendingReqs :=
            { s.pendingReqs with reqs := (drawn rand i k s.pendingReqs.reqs).2 } } := by
  induction k generalizing i s with
  | zero => rfl
  | succ k ih =>
    unfold State.dropRandom
    cases hempty : s.pendingReqs.isQempty with
    | true =>
      -- nothing left to draw from
      have hnil : s.pendingReqs.reqs = [] := ReqQ.isQempty_iff.mp hempty
      have hdrawn : drawn rand i (k + 1) s.pendingReqs.reqs = ([], s.pendingReqs.reqs) := by
        rw [hnil]
        rfl
      rw [if_pos rfl, hdrawn]
      rfl
    | false =>
      obtain ⟨r, hr⟩ := State.exists_random_entry hempty (rand i)
      have hr' : s.pendingReqs.reqs[rand i % s.pendingReqs.reqs.length]? = some r := hr
      have hdrawn : drawn rand i (k + 1) s.pendingReqs.reqs =
          (r :: (drawn rand (i + 1) k
              (s.pendingReqs.reqs.eraseIdx (rand i % s.pendingReqs.reqs.length))).1,
            (drawn rand (i + 1) k
              (s.pendingReqs.reqs.eraseIdx (rand i % s.pendingReqs.reqs.length))).2) := by
        rw [drawn, hr']
      rw [if_neg (by decide), State.dropPending_eq hr, ih, hdrawn]
      rfl

/-! ### Descriptors are not negative -/

/-- No number is open in `t` that is not open in `s`. -/
def OpensNothing (s t : State cfg) : Prop := ∀ x c, t.openFds x = some c → s.openFds x = some c

theorem OpensNothing.refl (s : State cfg) : OpensNothing s s := fun _ _ h => h

theorem OpensNothing.trans {s t u : State cfg} (h : OpensNothing s t) (h' : OpensNothing t u) :
    OpensNothing s u := fun x c hx => h x c (h' x c hx)

theorem opensNothing_closeFd (fd : Int) (s : State cfg) : OpensNothing s (s.closeFd fd) := by
  intro x c hx
  change Function.update s.openFds fd none x = some c at hx
  by_cases hfd : x = fd
  · subst hfd
    simp at hx
  · rwa [Function.update_of_ne hfd] at hx

theorem opensNothing_dropRandom (rand : ℕ → ℕ) (i k : ℕ) (s : State cfg) :
    OpensNothing s (s.dropRandom rand i k) := by
  induction k generalizing i s with
  | zero => exact OpensNothing.refl s
  | succ k ih =>
    unfold State.dropRandom
    split
    · exact OpensNothing.refl s
    · exact OpensNothing.trans (opensNothing_closeFd _ { s with pendingReqs := _ }) (ih _ _)

theorem opensNothing_bfLoop (fd : Int) (time : Timeval) (s : State cfg) :
    OpensNothing s (s.bfLoop fd time) := by
  unfold State.bfLoop
  split
  · exact OpensNothing.refl s
  · exact opensNothing_closeFd fd s

theorem opensNothing_blockLoop (wake : Fin cfg.maxThreads → Bool) (fd : Int) (time : Timeval)
    (s : State cfg) : OpensNothing s (s.blockLoop wake fd time) := by
  unfold State.blockLoop
  split <;> exact OpensNothing.refl s

theorem opensNothing_mainSection (rand : ℕ → ℕ) (wake : Fin cfg.maxThreads → Bool) (fd : Int)
    (time : Timeval) (s : State cfg) : OpensNothing s (s.mainSection rand wake fd time) := by
  unfold State.mainSection
  dsimp only
  split
  · cases cfg.policy with
    | block => exact opensNothing_blockLoop wake fd time (s.recordArrival fd time)
    | dt => exact opensNothing_closeFd fd (s.recordArrival fd time)
    | bf => exact opensNothing_bfLoop fd time (s.recordArrival fd time)
    | dh =>
      dsimp only
      split
      · exact opensNothing_closeFd _ { s.recordArrival fd time with pendingReqs := _ }
      · exact opensNothing_closeFd fd (s.recordArrival fd time)
    | random =>
      dsimp only
      split
      · exact opensNothing_dropRandom rand 0 _ (s.recordArrival fd time)
      · exact opensNothing_closeFd fd (s.recordArrival fd time)
  · exact OpensNothing.refl s

/-- The numbers now open are not negative. -/
def FdsNonneg (s : State cfg) : Prop := ∀ x c, s.openFds x = some c → 0 ≤ x

/-- `accept` never returns a negative number, and nothing else opens one. -/
theorem FdsNonneg.of_reachable (h : (server cfg).Reachable s) : FdsNonneg s := by
  refine h.invariant ?_ ?_
  · rintro _ rfl x c hx
    cases hx
  · intro s l t hs hst x c hx
    cases hst with
    | accept fd hm hpos hfree =>
      -- the only step that opens a number
      change Function.update s.openFds fd _ x = some c at hx
      by_cases hfd : x = fd
      · exact hfd ▸ hpos
      · rw [Function.update_of_ne hfd] at hx
        exact hs x c hx
    | mainLock rand wake fd time hm hw =>
      exact hs x c (opensNothing_mainSection rand wake fd time s x c hx)
    | blockWake wake fd time hm hw => exact hs x c (opensNothing_blockLoop wake fd time s x c hx)
    | bfWake fd time hm => exact hs x c (opensNothing_bfLoop fd time s x c hx)
    | mainSpurious hm => exact hs x c hx
    | take w tt1 hw =>
      -- a worker takes a request over, its descriptor is open already
      have hopen : (s.takeSection w tt1).openFds = s.openFds := by
        unfold State.takeSection
        split <;> rfl
      rw [hopen] at hx
      exact hs x c hx
    | workerSpurious w hw => exact hs x c hx
    | handle w fd arrival hw => exact hs x c hx
    | close w fd hw => exact hs x c (opensNothing_closeFd fd s x c hx)
    | finish w fd hw => exact hs x c hx

/-! ### The policy -/

/-- The section of a full server under policy `random`, with the requests that were drawn. -/
theorem mainSection_random (hpolicy : cfg.policy = .random) (hfull : s.overloaded = true)
    (hne : s.pendingReqs.getQsize ≠ 0) (rand : ℕ → ℕ) (wake : Fin cfg.maxThreads → Bool)
    (connfd : Int) (time : Timeval) {removed kept : List Req}
    (hdrawn : drawn rand 0 ((s.pendingReqs.getQsize + 1) / 2) s.pendingReqs.reqs
      = (removed, kept)) :
    s.mainSection rand wake connfd time =
      State.enqueue wake connfd time
        (State.closeAll (removed.map Req.data)
          { s.recordArrival connfd time with
            pendingReqs := { s.pendingReqs with reqs := kept } }) := by
  have hloop := dropRandom_eq rand 0 ((s.pendingReqs.getQsize + 1) / 2)
    (s.recordArrival connfd time)
  -- the branch taken
  have hsection : s.mainSection rand wake connfd time =
      State.enqueue wake connfd time ((s.recordArrival connfd time).dropRandom rand 0
        ((s.pendingReqs.getQsize + 1) / 2)) := by
    unfold State.mainSection
    dsimp only
    rw [if_pos (show (s.recordArrival connfd time).overloaded = true from hfull)]
    simp only [hpolicy]
    exact if_pos hne
  rw [hsection, hloop]
  change State.enqueue wake connfd time
    (State.closeAll ((drawn rand 0 ((s.pendingReqs.getQsize + 1) / 2) s.pendingReqs.reqs).1.map
      Req.data) { s.recordArrival connfd time with
        pendingReqs := { s.pendingReqs with
          reqs := (drawn rand 0 ((s.pendingReqs.getQsize + 1) / 2) s.pendingReqs.reqs).2 } }) = _
  rw [hdrawn]

/-- **The random drop policy.** Whenever a connection arrives at a full server with `n ≥ 1` requests
waiting, and whatever `rand` returns, the section takes out half of them rounded up, closes the
descriptor of each of them once and no other, leaves the rest in their order and puts the new
connection behind them. The log has these closes and nothing else behind the arrival, and the
numbers that were closed are the ones no longer open. -/
theorem random_drops_half (hpolicy : cfg.policy = .random) (h : (server cfg).Reachable s)
    (hfull : s.overloaded = true) (hne : s.pendingReqs.getQsize ≠ 0) (rand : ℕ → ℕ)
    (wake : Fin cfg.maxThreads → Bool) (connfd : Int) (time : Timeval) :
    ∃ removed kept : List Req,
      (removed ++ kept).Perm s.pendingReqs.reqs ∧
      removed.length = (s.pendingReqs.getQsize + 1) / 2 ∧
      kept.length = s.pendingReqs.getQsize / 2 ∧ kept.Sublist s.pendingReqs.reqs ∧
      (removed.map Req.data).Nodup ∧ -1 ∉ removed.map Req.data ∧
      s.mainSection rand wake connfd time =
        State.enqueue wake connfd time
          (State.closeAll (removed.map Req.data)
            { s.recordArrival connfd time with
              pendingReqs := { s.pendingReqs with reqs := kept } }) ∧
      (s.mainSection rand wake connfd time).pendingReqs.reqs = kept ++ [⟨time, connfd⟩] ∧
      (s.mainSection rand wake connfd time).log =
        s.log ++ [.recorded (s.openFds connfd) time] ++
          (removed.map Req.data).map (fun fd => .closed (s.openFds fd)) ∧
      ∀ x, (s.mainSection rand wake connfd time).openFds x =
        if x ∈ removed.map Req.data then none else s.openFds x := by
  have hinv := OwnInv.of_reachable h
  have hsize : s.pendingReqs.getQsize = s.pendingReqs.reqs.length := rfl
  obtain ⟨hperm, hout, hsub⟩ := drawn_spec rand 0 ((s.pendingReqs.getQsize + 1) / 2)
    s.pendingReqs.reqs (by omega)
  -- from here on only the two lists matter
  obtain ⟨⟨removed, kept⟩, hdrawn⟩ : ∃ x, drawn rand 0 ((s.pendingReqs.getQsize + 1) / 2)
    s.pendingReqs.reqs = x := ⟨_, rfl⟩
  have hsection := mainSection_random hpolicy hfull hne rand wake connfd time hdrawn
  rw [hdrawn] at hperm hout hsub
  dsimp only at hperm hout hsub
  have hkept : kept.length = s.pendingReqs.getQsize / 2 := by
    have hlen := hperm.length_eq
    rw [List.length_append] at hlen
    omega
  have hnodup : ((removed ++ kept).map Req.data).Nodup :=
    (hperm.map Req.data).nodup_iff.mpr hinv.own.queue_nodup
  have hneg : -1 ∉ removed.map Req.data := by
    intro hmem
    obtain ⟨r, hr, hdata⟩ := List.mem_map.mp hmem
    obtain ⟨c, hc⟩ := hinv.open_of_pending (hperm.subset (List.mem_append_left _ hr))
    have := FdsNonneg.of_reachable h r.data c hc
    omega
  have honce : (removed.map Req.data).Nodup := by
    rw [List.map_append] at hnodup
    exact (List.nodup_append.mp hnodup).1
  -- the queue has room again, so `insertReq` appends
  have hroom : kept.length < s.pendingReqs.maxSize := by
    have hle := hinv.total_le
    have hlimit := hinv.pending_limit
    omega
  have hnotFull : (State.closeAll (removed.map Req.data)
      { s.recordArrival connfd time with
        pendingReqs := { s.pendingReqs with reqs := kept } }).pendingReqs.isQfull = false := by
    rw [closeAll_pendingReqs]
    exact ReqQ.isQfull_of_room hroom
  refine ⟨removed, kept, hperm, hout, hkept, hsub, honce, hneg, hsection, ?_, ?_, fun x => ?_⟩
  · rw [hsection]
    change ((State.closeAll (removed.map Req.data) _).pendingReqs.insertReq connfd time).reqs = _
    rw [closeAll_pendingReqs, ReqQ.insertReq_of_room]
    exact hroom
  · rw [hsection]
    change (State.closeAll (removed.map Req.data) _).log ++
      (if (State.closeAll (removed.map Req.data) _).pendingReqs.isQfull then [.queueFull] else [])
        = _
    rw [hnotFull, closeAll_log honce]
    exact List.append_nil _
  · rw [hsection]
    exact closeAll_openFds _ _ x

/-- One worker and room for four tasks. -/
def fourTasks : Config := ⟨.random, 1, 4, Nat.one_pos, by decide⟩

/-- The worker has taken the first of four requests, three wait and a fifth connection has been
accepted. -/
def threeWait : State fourTasks :=
  State.initial fourTasks
    |>.acceptConn 4
    |>.mainSection (fun _ => 0) (fun _ => true) 4 ⟨10, 0⟩
    |>.takeSection ⟨0, Nat.one_pos⟩ ⟨10, 1⟩
    |>.acceptConn 5
    |>.mainSection (fun _ => 0) (fun _ => true) 5 ⟨11, 0⟩
    |>.acceptConn 6
    |>.mainSection (fun _ => 0) (fun _ => true) 6 ⟨12, 0⟩
    |>.acceptConn 7
    |>.mainSection (fun _ => 0) (fun _ => true) 7 ⟨13, 0⟩
    |>.acceptConn 8

theorem threeWait_reachable : (server fourTasks).Reachable threeWait := by
  have hinit : (server fourTasks).Reachable (State.initial fourTasks) :=
    System.Reachable.of_init rfl
  have hwake : ∀ workers : Fin fourTasks.maxThreads → WorkerPc,
      ValidWake workers fun _ => true := fun _ ⟨w, hw⟩ => ⟨w, hw, rfl⟩
  exact hinit
    |>.tail (Step.accept _ 4 rfl (by decide) rfl)
    |>.tail (Step.mainLock _ (fun _ => 0) (fun _ => true) 4 ⟨10, 0⟩ rfl (hwake _))
    |>.tail (Step.take _ ⟨0, Nat.one_pos⟩ ⟨10, 1⟩ (Or.inl rfl))
    |>.tail (Step.accept _ 5 rfl (by decide) rfl)
    |>.tail (Step.mainLock _ (fun _ => 0) (fun _ => true) 5 ⟨11, 0⟩ rfl (hwake _))
    |>.tail (Step.accept _ 6 rfl (by decide) rfl)
    |>.tail (Step.mainLock _ (fun _ => 0) (fun _ => true) 6 ⟨12, 0⟩ rfl (hwake _))
    |>.tail (Step.accept _ 7 rfl (by decide) rfl)
    |>.tail (Step.mainLock _ (fun _ => 0) (fun _ => true) 7 ⟨13, 0⟩ rfl (hwake _))
    |>.tail (Step.accept _ 8 rfl (by decide) rfl)

/-- The request in the middle goes first and then the last one; the oldest one stays. -/
theorem random_drops_half_threeWait :
    (threeWait.mainSection (fun _ => 1) (fun _ => true) 8 ⟨14, 0⟩).pendingReqs.reqs =
        [⟨⟨11, 0⟩, 5⟩, ⟨⟨14, 0⟩, 8⟩] ∧
      ∃ removed kept : List Req, removed.length = 2 ∧ kept.length = 1 ∧
        (threeWait.mainSection (fun _ => 1) (fun _ => true) 8 ⟨14, 0⟩).pendingReqs.reqs =
          kept ++ [⟨⟨14, 0⟩, 8⟩] := by
  obtain ⟨removed, kept, -, hout, hkept, -, -, -, -, hreqs, -, -⟩ :=
    random_drops_half rfl threeWait_reachable rfl (by decide) (fun _ => 1) (fun _ => true) 8
      ⟨14, 0⟩
  exact ⟨rfl, removed, kept, hout, hkept, hreqs⟩

end Server
end OsHomework
