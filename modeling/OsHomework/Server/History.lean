import OsHomework.Server.Accounting

/-!
# What the log says about a connection

The invariant of `Accounting` places every connection; the one here follows what
has been done with it. The arrival time read by the main thread stays with the
connection through `pending_reqs` into the hands of a worker, a connection is
passed to `requestHandle` once, while it is open, and closed once
(`connection_accounting`), and the order in which connections are taken is the
order in which they were accepted (`dispatch_order`).

All moves but three leave the facts about the connections still open as they are:
they only hand a connection on or close one. `HistInv.move` treats them together,
under what they have in common. The remaining three, `accept`, `record` and
`handle`, each add the event the facts are about.
-/

namespace OsHomework
namespace Server

variable {cfg : Config} {s t : State cfg}

/-- The connection and arrival time the main thread has in hand. -/
def MainPc.timed : MainPc → Option (Int × Timeval)
  | .deciding fd t | .blockWait fd t _ | .bfWait fd t _ => some (fd, t)
  | _ => none

theorem MainPc.Decides.timed {pc : MainPc} {fd : Int} {t : Timeval} (h : pc.Decides fd t) :
    pc.timed = some (fd, t) := by
  rcases h with rfl | rfl | rfl <;> rfl

theorem MainPc.held_of_timed {pc : MainPc} {fd : Int} {t : Timeval} (h : pc.timed = some (fd, t)) :
    pc.held = some fd := by
  cases pc with
  | accepting => cases h
  | accepted _ => cases h
  | _ => simp_all [MainPc.timed, MainPc.held]

/-- The clock has been read for the connection behind `fd`, and showed `t`. -/
def State.Recorded (s : State cfg) (fd : Int) (t : Timeval) : Prop :=
  .recorded (s.openFds fd) t ∈ s.log

/-- What must not come later in the log: nothing happens to a connection twice,
and `requestHandle` is not called on a closed one. -/
def Event.Compat : Event → Event → Prop
  | .closed c, .closed c' => c ≠ c'
  | .closed c, .handled c' _ => c ≠ c'
  | .handled c _, .handled c' _ => c ≠ c'
  | .recorded c _, .recorded c' _ => c ≠ c'
  | _, _ => True

/-- The events that are not about the clock or `requestHandle`. -/
def Event.Quiet : Event → Prop
  | .recorded _ _ | .handled _ _ => False
  | _ => True

theorem openFds_closed_or (f : Int → Option Conn) (fd x : Int) :
    Function.update f fd none x = f x ∨ Function.update f fd none x = none := by
  by_cases hx : x = fd
  · exact Or.inr (hx ▸ Function.update_self _ _ _)
  · exact Or.inl (Function.update_of_ne hx _ _)

/-- The history invariant, on top of the ownership one. -/
structure HistInv (s : State cfg) : Prop extends OwnInv s where
  recorded_main : ∀ fd tm, s.main.timed = some (fd, tm) → s.Recorded fd tm
  unrecorded_main : ∀ fd tm, s.main = .accepted fd → ¬s.Recorded fd tm
  recorded_pending : ∀ r ∈ s.pendingReqs.reqs, s.Recorded r.data r.insertionTime
  recorded_worker : ∀ w fd a, s.workers w = .handling fd a → ∃ tm, a = some tm ∧ s.Recorded fd tm
  recorded_spec : ∀ o tm, .recorded o tm ∈ s.log → ∃ c, o = some c ∧ c < s.nextConn
  handled_spec : ∀ o a, .handled o a ∈ s.log → ∃ tm, a = some tm ∧ .recorded o tm ∈ s.log
  handled_place : ∀ o a, .handled o a ∈ s.log →
    .closed o ∈ s.log ∨ ∃ w fd, s.workers w = .handled fd ∧ s.openFds fd = o
  ordered : s.log.Pairwise Event.Compat

theorem HistInv.initial : HistInv (State.initial cfg) where
  toOwnInv := OwnInv.initial
  recorded_main _ _ h := by cases h
  unrecorded_main _ _ h := by cases h
  recorded_pending _ h := absurd h List.not_mem_nil
  recorded_worker _ _ _ h := by cases h
  recorded_spec _ _ h := absurd h List.not_mem_nil
  handled_spec _ _ h := absurd h List.not_mem_nil
  handled_place _ _ h := absurd h List.not_mem_nil
  ordered := List.Pairwise.nil

/-! ### Workers the move is not about -/

theorem handling_of_setWorker {w v : Fin cfg.maxThreads} {pc : WorkerPc} {fd : Int}
    {a : Option Timeval} (hpc : pc ≠ .handling fd a)
    (h : (s.setWorker w pc).workers v = .handling fd a) : s.workers v = .handling fd a := by
  change Function.update s.workers w pc v = _ at h
  by_cases hvw : v = w
  · rw [hvw, Function.update_self] at h
    exact absurd h hpc
  · rwa [Function.update_of_ne hvw] at h

theorem handled_setWorker {w v : Fin cfg.maxThreads} {pc : WorkerPc} {fd : Int}
    (hw : s.workers w ≠ .handled fd) (h : s.workers v = .handled fd) :
    (s.setWorker w pc).workers v = .handled fd := by
  change Function.update s.workers w pc v = _
  rwa [Function.update_of_ne]
  rintro rfl
  exact hw h

/-! ### The moves that only hand on or close -/

/-- A move that adds quiet events, keeps or closes the numbers of `s`, and hands
connections on only from the main thread to the queue and from the queue to a
worker. -/
theorem HistInv.move (h : HistInv s) (hO : OwnInv t) (es : List Event)
    (hlog : t.log = s.log ++ es) (hquiet : ∀ e ∈ es, e.Quiet)
    (hord : (s.log ++ es).Pairwise Event.Compat) (hn : t.nextConn = s.nextConn)
    (hopen : ∀ fd, t.openFds fd = s.openFds fd ∨ t.openFds fd = none)
    (htimed : ∀ p, t.main.timed = some p → s.main.timed = some p)
    (hacc : ∀ fd, t.main = .accepted fd → s.main = .accepted fd)
    (hpend : ∀ r ∈ t.pendingReqs.reqs,
      r ∈ s.pendingReqs.reqs ∨ s.main.timed = some (r.data, r.insertionTime))
    (hwork : ∀ w fd a, t.workers w = .handling fd a → s.workers w = .handling fd a ∨
      ∃ r ∈ s.pendingReqs.reqs, fd = r.data ∧ a = some r.insertionTime)
    (hdone : ∀ w fd, s.workers w = .handled fd →
      (t.workers w = .handled fd ∧ t.openFds fd = s.openFds fd) ∨
        .closed (s.openFds fd) ∈ t.log) : HistInv t := by
  have hsub : ∀ e ∈ s.log, e ∈ t.log := fun e he => hlog ▸ List.mem_append_left _ he
  -- what is open after the move was open before, for the same connection
  have hkeep : ∀ fd tm, (∃ c, t.openFds fd = some c) → s.Recorded fd tm → t.Recorded fd tm := by
    rintro fd tm ⟨c, hc⟩ hrec
    rcases hopen fd with hfd | hfd
    · unfold State.Recorded
      rw [hfd]
      exact hsub _ hrec
    · rw [hfd] at hc
      cases hc
  have hrec_old : ∀ o tm, .recorded o tm ∈ t.log → .recorded o tm ∈ s.log := by
    intro o tm ho
    rw [hlog, List.mem_append] at ho
    exact ho.resolve_right fun he => hquiet _ he
  have hhan_old : ∀ o a, .handled o a ∈ t.log → .handled o a ∈ s.log := by
    intro o a ho
    rw [hlog, List.mem_append] at ho
    exact ho.resolve_right fun he => hquiet _ he
  refine ⟨hO, ?_, ?_, ?_, ?_, ?_, ?_, ?_, hlog ▸ hord⟩
  · -- `recorded_main`
    intro fd tm hm
    exact hkeep fd tm (hO.open_of_held (i := none) (MainPc.held_of_timed hm))
      (h.recorded_main fd tm (htimed _ hm))
  · -- `unrecorded_main`: a record after the move was there before it
    intro fd tm hm hrec
    have hheld : t.held none = some fd := held_of_main hm
    obtain ⟨c, hc⟩ := hO.open_of_held hheld
    rcases hopen fd with hfd | hfd
    · apply h.unrecorded_main fd tm (hacc fd hm)
      unfold State.Recorded
      rw [← hfd]
      exact hrec_old _ _ hrec
    · rw [hfd] at hc
      cases hc
  · -- `recorded_pending`: an entry is old, or it is the pair of the main thread
    intro r hr
    apply hkeep _ _ (hO.open_of_pending hr)
    rcases hpend r hr with hr | hm
    · exact h.recorded_pending r hr
    · exact h.recorded_main _ _ hm
  · -- `recorded_worker`: the worker had the pair before, or the queue had it
    intro w fd a hw
    have hheld : t.held (some w) = some fd := held_of_worker hw
    have hop := hO.open_of_held hheld
    rcases hwork w fd a hw with hw | ⟨r, hr, rfl, rfl⟩
    · obtain ⟨tm, rfl, hrec⟩ := h.recorded_worker w fd a hw
      exact ⟨tm, rfl, hkeep fd tm hop hrec⟩
    · exact ⟨_, rfl, hkeep _ _ hop (h.recorded_pending r hr)⟩
  · -- `recorded_spec` and `handled_spec`: no such event is new
    intro o tm ho
    rw [hn]
    exact h.recorded_spec o tm (hrec_old o tm ho)
  · intro o a ho
    obtain ⟨tm, ha, hrec⟩ := h.handled_spec o a (hhan_old o a ho)
    exact ⟨tm, ha, hsub _ hrec⟩
  · intro o a ho
    rcases h.handled_place o a (hhan_old o a ho) with hc | ⟨w, fd, hw, rfl⟩
    · exact Or.inl (hsub _ hc)
    · -- the worker is where it was, or has just closed the connection
      rcases hdone w fd hw with ⟨hw', hfd⟩ | hc
      · exact Or.inr ⟨w, fd, hw', hfd⟩
      · exact Or.inl hc

/-- The moves that add no event and touch no descriptor. -/
theorem HistInv.still (h : HistInv s) (hO : OwnInv t) (hlog : t.log = s.log)
    (hn : t.nextConn = s.nextConn) (hfd : t.openFds = s.openFds)
    (htimed : ∀ p, t.main.timed = some p → s.main.timed = some p)
    (hacc : ∀ fd, t.main = .accepted fd → s.main = .accepted fd)
    (hpend : ∀ r ∈ t.pendingReqs.reqs,
      r ∈ s.pendingReqs.reqs ∨ s.main.timed = some (r.data, r.insertionTime))
    (hwork : ∀ w fd a, t.workers w = .handling fd a → s.workers w = .handling fd a)
    (hdone : ∀ w fd, s.workers w = .handled fd → t.workers w = .handled fd) : HistInv t :=
  h.move hO [] (by rw [hlog, List.append_nil]) (fun _ he => absurd he List.not_mem_nil)
    (by rw [List.append_nil]; exact h.ordered) hn (fun fd => Or.inl (by rw [hfd])) htimed hacc
    hpend (fun w fd a hw => Or.inl (hwork w fd a hw))
    (fun w fd hw => Or.inl ⟨hdone w fd hw, by rw [hfd]⟩)

/-- One more event that nothing in the log excludes. -/
theorem HistInv.ordered_snoc (h : HistInv s) {e' : Event} (he' : ∀ e ∈ s.log, e.Compat e') :
    (s.log ++ [e']).Pairwise Event.Compat := by
  refine List.pairwise_append.mpr ⟨h.ordered, List.pairwise_singleton _ _, fun e he x hx => ?_⟩
  rw [List.mem_singleton.mp hx]
  exact he' e he

/-- Closing an open connection comes after everything the log has for it. -/
theorem HistInv.ordered_closed (h : HistInv s) {fd : Int} {c : Conn}
    (hc : s.openFds fd = some c) :
    (s.log ++ [Event.closed (s.openFds fd)]).Pairwise Event.Compat := by
  refine h.ordered_snoc fun e he => ?_
  rw [hc]
  cases e with
  | closed o =>
    obtain ⟨k, rfl, -, hnot⟩ := h.closed_spec o he
    intro hk
    exact hnot fd (hc.trans hk.symm)
  | _ => trivial

theorem HistInv.dropPending (h : HistInv s) {i : ℕ} {r : Req}
    (hr : s.pendingReqs.reqs[i]? = some r) : HistInv (s.dropPending i) := by
  have hO := h.toOwnInv.dropPending hr
  obtain ⟨c, hc⟩ := h.toOwnInv.open_of_pending (List.mem_of_getElem? hr)
  rw [State.dropPending_eq hr] at hO ⊢
  refine h.move hO [.closed (s.openFds r.data)] rfl (by simp [Event.Quiet])
    (h.ordered_closed hc) rfl ?_ (fun _ => id) (fun _ => id) ?_ (fun _ _ _ hw => Or.inl hw) ?_
  · exact openFds_closed_or s.openFds r.data
  · intro r' hr'
    exact Or.inl ((List.eraseIdx_sublist _ _).subset hr')
  · intro w x hw
    refine Or.inl ⟨hw, Function.update_of_ne ?_ _ _⟩
    rintro rfl
    -- a worker's number is not in the queue
    exact h.own.held_queue (some w) r.data (held_of_worker hw)
      (List.mem_map_of_mem (List.mem_of_getElem? hr))

theorem HistInv.dropNew (h : HistInv s) {fd : Int} {tm : Timeval} (hm : s.main.Decides fd tm) :
    HistInv (s.dropNew fd) := by
  obtain ⟨c, hc⟩ := h.toOwnInv.open_of_held (i := none) hm.held
  refine h.move (h.toOwnInv.dropNew hm) [.closed (s.openFds fd)] rfl
    (by simp [Event.Quiet]) (h.ordered_closed hc) rfl ?_ (fun _ hp => by cases hp)
    (fun _ hp => by cases hp) (fun _ hr => Or.inl hr) (fun _ _ _ hw => Or.inl hw) ?_
  · exact openFds_closed_or s.openFds fd
  · intro w x hw
    refine Or.inl ⟨hw, Function.update_of_ne ?_ _ _⟩
    rintro rfl
    have hi : s.held (some w) = some x := held_of_worker hw
    cases h.own.held_inj (some w) none x hi hm.held

theorem HistInv.enqueue (h : HistInv s) {fd : Int} {tm : Timeval} (hm : s.main.Decides fd tm)
    (wake : Fin cfg.maxThreads → Bool)
    (hroom : s.pendingReqs.getQsize + s.busyThreads.getQsize < cfg.maxTasks) :
    HistInv (s.enqueue wake fd tm) := by
  refine h.still (h.toOwnInv.enqueue hm wake hroom) (h.log_enqueue wake hroom fd tm) rfl rfl
    (fun _ hp => by cases hp) (fun _ hp => by cases hp) ?_ ?_ ?_
  · -- the entry is the pair that the main thread has recorded
    intro r hr
    rw [h.pending_enqueue wake hroom, List.mem_append, List.mem_singleton] at hr
    rcases hr with hr | rfl
    · exact Or.inl hr
    · exact Or.inr hm.timed
  · -- a signal changes sleeping workers only
    intro w x a hw
    change (if (s.workers w).asleep && wake w then WorkerPc.waiting true
      else s.workers w) = _ at hw
    split at hw
    · cases hw
    · exact hw
  · intro w x hw
    change (if (s.workers w).asleep && wake w then WorkerPc.waiting true
      else s.workers w) = _
    rw [hw]
    rfl

theorem HistInv.take (h : HistInv s) {w : Fin cfg.maxThreads} (tt1 : Timeval) {r : Req}
    {rs : List Req} (hw : (s.workers w).Ready) (hq : s.pendingReqs.reqs = r :: rs) :
    HistInv (s.takeSection w tt1) := by
  have hO := h.toOwnInv.take tt1 hw hq
  have hfull := ReqQ.isQfull_of_room (h.busy_room hw)
  rw [State.takeSection_cons hq] at hO ⊢
  refine h.move hO [.taken (s.openFds r.data)] ?_ (by simp [Event.Quiet]) ?_ rfl
    (fun _ => Or.inl rfl) (fun _ => id) (fun _ => id) ?_ ?_ ?_
  · simp [State.setWorker, hfull]
  · -- nothing excludes a `taken` after it
    refine h.ordered_snoc fun e _ => ?_
    cases e <;> trivial
  · intro r' hr'
    exact Or.inl (hq ▸ List.mem_cons_of_mem r hr')
  · -- the worker has the pair that was in the queue
    intro v fd a hv
    change Function.update s.workers w _ v = _ at hv
    by_cases hvw : v = w
    · subst hvw
      rw [Function.update_self] at hv
      obtain ⟨rfl, rfl⟩ := WorkerPc.handling.inj hv
      exact Or.inr ⟨r, hq ▸ List.mem_cons_self, rfl, rfl⟩
    · rw [Function.update_of_ne hvw] at hv
      exact Or.inl hv
  · intro v fd hv
    have hne : s.workers w ≠ .handled fd := by
      rcases hw with hw | hw <;> simp [hw]
    exact Or.inl ⟨handled_setWorker hne hv, rfl⟩

theorem HistInv.closeReq (h : HistInv s) {w : Fin cfg.maxThreads} {fd : Int}
    (hw : s.workers w = .handled fd) : HistInv (s.closeReq w fd) := by
  have hi : s.held (some w) = some fd := held_of_worker hw
  obtain ⟨c, hc⟩ := h.toOwnInv.open_of_held hi
  refine h.move (h.toOwnInv.closeReq hw) [.closed (s.openFds fd)] rfl
    (by simp [Event.Quiet]) (h.ordered_closed hc) rfl ?_ (fun _ => id) (fun _ => id)
    (fun _ hr => Or.inl hr) ?_ ?_
  · exact openFds_closed_or s.openFds fd
  · -- the worker does not go back to `handling`
    intro v x a hv
    exact Or.inl (handling_of_setWorker WorkerPc.noConfusion hv)
  · intro v x hv
    by_cases hvw : v = w
    · -- the closing worker itself
      subst hvw
      obtain rfl : fd = x := WorkerPc.handled.inj (hw.symm.trans hv)
      exact Or.inr (List.mem_append_right _ (List.mem_singleton.mpr rfl))
    · refine Or.inl ⟨?_, Function.update_of_ne ?_ _ _⟩
      · change Function.update s.workers w _ v = _
        rwa [Function.update_of_ne hvw]
      · -- two workers do not hold one number
        rintro rfl
        have hj : s.held (some v) = some x := held_of_worker hv
        exact hvw (Option.some.inj (h.own.held_inj _ _ x hj hi))

/-! ### The three moves that add an event the facts are about -/

theorem HistInv.accept (h : HistInv s) {fd : Int} (hm : s.main = .accepting)
    (hfree : s.openFds fd = none) : HistInv (s.acceptConn fd) := by
  have hO := h.toOwnInv.accept hm hfree
  -- a number already owned is another one than the new
  have hkeep : ∀ x tm, (∃ c, s.openFds x = some c) → s.Recorded x tm →
      (s.acceptConn fd).Recorded x tm := by
    rintro x tm ⟨c, hc⟩ hrec
    have hx : x ≠ fd := by
      rintro rfl
      rw [hfree] at hc
      cases hc
    change Event.recorded (Function.update s.openFds fd _ x) tm ∈ s.log ++ [_]
    rw [Function.update_of_ne hx]
    exact List.mem_append_left _ hrec
  refine ⟨hO, ?_, ?_, ?_, ?_, ?_, ?_, ?_, ?_⟩
  · intro x tm hx
    cases hx
  · -- `unrecorded_main`: the new connection has a number above all recorded ones
    intro x tm hx hrec
    obtain rfl : fd = x := MainPc.accepted.inj hx
    change Event.recorded (Function.update s.openFds fd _ fd) tm ∈ s.log ++ [_] at hrec
    rw [Function.update_self] at hrec
    obtain ⟨c, hc, hlt⟩ := h.recorded_spec _ tm (by simpa using hrec)
    exact absurd hlt (Option.some.inj hc ▸ lt_irrefl _)
  · -- what was recorded for a number in use stays
    intro r hr
    exact hkeep _ _ (h.toOwnInv.open_of_pending hr) (h.recorded_pending r hr)
  · intro w x a hw
    obtain ⟨tm, ha, hrec⟩ := h.recorded_worker w x a hw
    have hheld : s.held (some w) = some x := held_of_worker hw
    exact ⟨tm, ha, hkeep x tm (h.toOwnInv.open_of_held hheld) hrec⟩
  · intro o tm ho
    obtain ⟨c, hc, hlt⟩ := h.recorded_spec o tm (by simpa [State.acceptConn] using ho)
    exact ⟨c, hc, Nat.lt_succ_of_lt hlt⟩
  · -- `handled_spec`
    intro o a ho
    obtain ⟨tm, ha, hrec⟩ := h.handled_spec o a (by simpa [State.acceptConn] using ho)
    exact ⟨tm, ha, List.mem_append_left _ hrec⟩
  · intro o a ho
    rcases h.handled_place o a (by simpa [State.acceptConn] using ho) with hc | ⟨w, x, hw, rfl⟩
    · exact Or.inl (List.mem_append_left _ hc)
    · -- a worker past `requestHandle` holds an open number, not the new one
      refine Or.inr ⟨w, x, hw, Function.update_of_ne ?_ _ _⟩
      rintro rfl
      have hheld : s.held (some w) = some x := held_of_worker hw
      obtain ⟨c, hc⟩ := h.toOwnInv.open_of_held hheld
      rw [hfree] at hc
      cases hc
  · -- `ordered`: nothing excludes an `accepted` after it
    refine h.ordered_snoc fun e _ => ?_
    cases e <;> trivial

theorem HistInv.record (h : HistInv s) {fd : Int} (tm : Timeval) (hm : s.main = .accepted fd) :
    HistInv (s.recordArrival fd tm) := by
  have hheld : s.held none = some fd := held_of_main hm
  obtain ⟨c, hc⟩ := h.toOwnInv.open_of_held hheld
  have hsub : ∀ e ∈ s.log, e ∈ (s.recordArrival fd tm).log := fun e he =>
    List.mem_append_left _ he
  refine ⟨own_stable.record s fd tm h.toOwnInv hm, ?_, ?_, ?_, ?_, ?_, ?_, ?_, ?_⟩
  · -- `recorded_main`: this is the event just written
    intro x tx hx
    obtain ⟨rfl, rfl⟩ := Prod.mk.inj (Option.some.inj hx)
    exact List.mem_append_right _ (List.mem_singleton.mpr rfl)
  · intro x tx hx
    cases hx
  · intro r hr
    exact hsub _ (h.recorded_pending r hr)
  · intro w x a hw
    obtain ⟨tx, ha, hrec⟩ := h.recorded_worker w x a hw
    exact ⟨tx, ha, hsub _ hrec⟩
  · -- `recorded_spec`: the number is open, so its connection has been accepted
    intro o tx ho
    rcases List.mem_append.mp ho with ho | ho
    · exact h.recorded_spec o tx ho
    · obtain ⟨rfl, rfl⟩ := Event.recorded.inj (List.mem_singleton.mp ho)
      exact ⟨c, hc, h.conn_lt fd c hc⟩
  · intro o a ho
    obtain ⟨tx, ha, hrec⟩ := h.handled_spec o a (by simpa [State.recordArrival] using ho)
    exact ⟨tx, ha, hsub _ hrec⟩
  · intro o a ho
    exact (h.handled_place o a (by simpa [State.recordArrival] using ho)).imp_left (hsub _)
  · refine h.ordered_snoc fun e he => ?_
    cases e with
    | recorded o tx =>
      -- the clock has not been read for this connection before
      rintro rfl
      exact h.unrecorded_main fd tx hm he
    | _ => trivial

theorem HistInv.handleReq (h : HistInv s) {w : Fin cfg.maxThreads} {fd : Int}
    {a : Option Timeval} (hw : s.workers w = .handling fd a) : HistInv (s.handleReq w fd a) := by
  have hi : s.held (some w) = some fd := held_of_worker hw
  -- the worker holds an open number, with the time that was recorded for it
  obtain ⟨c, hc⟩ := h.toOwnInv.open_of_held hi
  obtain ⟨tm, rfl, hrec⟩ := h.recorded_worker w fd a hw
  have hsub : ∀ e ∈ s.log, e ∈ (s.handleReq w fd (some tm)).log := fun e he =>
    List.mem_append_left _ he
  refine ⟨own_stable.handle s w fd _ h.toOwnInv hw, ?_, ?_, ?_, ?_, ?_, ?_, ?_, ?_⟩
  · intro x tx hx
    exact hsub _ (h.recorded_main x tx hx)
  · intro x tx hx hr
    exact h.unrecorded_main x tx hx (by
      simpa [State.Recorded, State.handleReq, State.setWorker] using hr)
  · intro r hr
    exact hsub _ (h.recorded_pending r hr)
  · -- the worker itself has left `handling`
    intro v x b hv
    obtain ⟨tx, hb, hr⟩ := h.recorded_worker v x b (handling_of_setWorker WorkerPc.noConfusion hv)
    exact ⟨tx, hb, hsub _ hr⟩
  · intro o tx ho
    exact h.recorded_spec o tx (by simpa [State.handleReq, State.setWorker] using ho)
  · intro o b ho
    rcases List.mem_append.mp ho with ho | ho
    · obtain ⟨tx, hb, hr⟩ := h.handled_spec o b ho
      exact ⟨tx, hb, hsub _ hr⟩
    · -- the new event reports the recorded time
      obtain ⟨rfl, rfl⟩ := Event.handled.inj (List.mem_singleton.mp ho)
      exact ⟨tm, rfl, hsub _ hrec⟩
  · intro o b ho
    rcases List.mem_append.mp ho with ho | ho
    · rcases h.handled_place o b ho with hcl | ⟨v, x, hv, hx⟩
      · exact Or.inl (hsub _ hcl)
      · have hne : s.workers w ≠ .handled x := by simp [hw]
        exact Or.inr ⟨v, x, handled_setWorker hne hv, hx⟩
    · -- `handled_place`: the worker is there now
      obtain ⟨rfl, -⟩ := Event.handled.inj (List.mem_singleton.mp ho)
      exact Or.inr ⟨w, fd, Function.update_self _ _ _, rfl⟩
  · refine h.ordered_snoc fun e he => ?_
    cases e with
    -- a closed connection is behind no open number
    | closed o =>
      obtain ⟨k, rfl, -, hnot⟩ := h.closed_spec o he
      exact fun hk => hnot fd hk.symm
    | handled o b =>
      -- a connection handled before is closed or with a worker past `requestHandle`
      rintro rfl
      rcases h.handled_place _ b he with hcl | ⟨v, x, hv, hx⟩
      · obtain ⟨k, hk, -, hnot⟩ := h.closed_spec _ hcl
        exact hnot fd hk
      · obtain rfl : x = fd := h.conn_inj x fd c (hx.trans hc) hc
        have hj : s.held (some v) = some x := held_of_worker hv
        obtain rfl : v = w := Option.some.inj (h.own.held_inj _ _ x hj hi)
        cases hw.symm.trans hv
    | _ => trivial

theorem hist_stable : Stable (HistInv : State cfg → Prop) where
  bounded _ h := h.total_le
  accept s fd h hm hf := h.accept hm hf
  record s fd t h hm := h.record t hm
  dropPending s fd t i r h _ hr := h.dropPending hr
  dropNew s fd t h hm := h.dropNew hm
  enqueue s fd t wake h hm hroom _ := h.enqueue hm wake hroom
  blockWait s fd t h hm hfull :=
    h.still (own_stable.blockWait s fd t h.toOwnInv hm hfull) rfl rfl rfl
      (fun _ hp => hm.timed.trans hp) (fun _ hp => by cases hp) (fun _ hr => Or.inl hr)
      (fun _ _ _ hw => hw) (fun _ _ hw => hw)
  bfWait s fd t h hm hfull hb :=
    h.still (own_stable.bfWait s fd t h.toOwnInv hm hfull hb) rfl rfl rfl
      (fun _ hp => hm.timed.trans hp) (fun _ hp => by cases hp) (fun _ hr => Or.inl hr)
      (fun _ _ _ hw => hw) (fun _ _ hw => hw)
  -- a signal changes neither the number nor the time the main thread holds
  signalMain s h := by
    refine h.still (own_stable.signalMain s h.toOwnInv) rfl rfl rfl ?_ ?_ (fun _ hr => Or.inl hr)
      (fun _ _ _ hw => hw) (fun _ _ hw => hw)
    · intro p hp
      unfold State.signalMain at hp
      cases hm : s.main <;> simp_all [MainPc.timed]
    · intro fd hp
      unfold State.signalMain at hp
      cases hm : s.main <;> simp_all
  sleep s w h hw hnil := by
    refine h.still (own_stable.sleep s w h.toOwnInv hw hnil) rfl rfl rfl (fun _ => id)
      (fun _ => id) (fun _ hr => Or.inl hr) ?_ ?_
    · intro v fd a hv
      exact handling_of_setWorker (by simp) hv
    · intro v fd hv
      refine handled_setWorker ?_ hv
      rcases hw with hw | hw <;> simp [hw]
  wake s w h hw := by
    refine h.still (own_stable.wake s w h.toOwnInv hw) rfl rfl rfl (fun _ => id)
      (fun _ => id) (fun _ hr => Or.inl hr) ?_ ?_
    · intro v fd a hv
      exact handling_of_setWorker (by simp) hv
    · intro v fd hv
      exact handled_setWorker (by simp [hw]) hv
  take s w tt1 r rs h hw hq := h.take tt1 hw hq
  handle s w fd arrival h hw := h.handleReq hw
  close s w fd h hw := h.closeReq hw
  -- the worker goes back to `idle` and wakes the main thread
  finish s w fd h hw := by
    have hO := own_stable.finish s w fd h.toOwnInv hw
    refine h.still hO rfl rfl rfl ?_ ?_ (fun _ hr => Or.inl hr) ?_ ?_
    · intro p hp
      unfold State.finishSection State.signalMain State.setWorker at hp
      cases hm : s.main <;> simp_all [MainPc.timed]
    · intro x hp
      unfold State.finishSection State.signalMain State.setWorker at hp
      cases hm : s.main <;> simp_all
    · intro v x a hv
      exact handling_of_setWorker (by simp) hv
    · intro v x hv
      exact handled_setWorker (by simp [hw]) hv

theorem HistInv.of_reachable (h : (server cfg).Reachable s) : HistInv s :=
  hist_stable.reachable HistInv.initial h

/-! ### Places -/

/-- Where a connection can be; a place in the queue is an index. -/
inductive Place (cfg : Config)
  | main
  | pending (i : ℕ)
  | worker (w : Fin cfg.maxThreads)
  | closed

/-- Connection `c` is at that place. -/
def State.At (s : State cfg) (c : Conn) : Place cfg → Prop
  | .main => ∃ fd, s.main.held = some fd ∧ s.openFds fd = some c
  | .pending i => ∃ r, s.pendingReqs.reqs[i]? = some r ∧ s.openFds r.data = some c
  | .worker w => ∃ fd, (s.workers w).held = some fd ∧ s.openFds fd = some c
  | .closed => .closed (some c) ∈ s.log

theorem OwnInv.exists_place (h : OwnInv s) {c : Conn} (hc : c < s.nextConn) : ∃ p, s.At c p := by
  rcases h.conn_cases c hc with ⟨fd, hfd⟩ | hcl
  · rcases (h.own.live_iff fd).mp ⟨c, hfd⟩ with ⟨i, hi⟩ | hmem
    · cases i with
      | none => exact ⟨.main, fd, hi, hfd⟩
      | some w => exact ⟨.worker w, fd, hi, hfd⟩
    · obtain ⟨r, hr, rfl⟩ := List.mem_map.mp hmem
      obtain ⟨i, hi⟩ := List.mem_iff_getElem?.mp hr
      exact ⟨.pending i, r, hi, hfd⟩
  · exact ⟨.closed, hcl⟩

/-- Two entries of `pending_reqs` never hold the same number. -/
theorem OwnInv.pending_index_inj (h : OwnInv s) {i j : ℕ} {r r' : Req}
    (hi : s.pendingReqs.reqs[i]? = some r) (hj : s.pendingReqs.reqs[j]? = some r')
    (hd : r.data = r'.data) : i = j := by
  obtain ⟨hi', rfl⟩ := List.getElem?_eq_some_iff.mp hi
  obtain ⟨hj', rfl⟩ := List.getElem?_eq_some_iff.mp hj
  have hli : i < s.pendingReqs.fds.length := by rwa [ReqQ.length_fds]
  have hlj : j < s.pendingReqs.fds.length := by rwa [ReqQ.length_fds]
  have heq : s.pendingReqs.fds[i] = s.pendingReqs.fds[j] := by simpa [ReqQ.fds] using hd
  exact h.own.queue_nodup.getElem_inj_iff.mp heq

/-- An open number has one place. -/
theorem OwnInv.place_unique (h : OwnInv s) {c : Conn} {p q : Place cfg} (hp : s.At c p)
    (hq : s.At c q) : p = q := by
  -- what is closed is open under no number
  have hclosed : ∀ fd, s.openFds fd = some c → .closed (some c) ∉ s.log := by
    intro fd hfd hcl
    obtain ⟨k, hk, -, hnot⟩ := h.closed_spec _ hcl
    exact hnot fd (hk ▸ hfd)
  -- what a thread holds is not in the queue
  have hqueue : ∀ i fd (r : Req) (j : ℕ), s.held i = some fd → s.openFds fd = some c →
      s.pendingReqs.reqs[j]? = some r → s.openFds r.data = some c → False := by
    intro i fd r j hi hfd hr hrc
    apply h.own.held_queue i fd hi
    rw [h.conn_inj fd r.data c hfd hrc]
    exact List.mem_map_of_mem (List.mem_of_getElem? hr)
  cases p with
  | main =>
    obtain ⟨fd, hi, hfd⟩ := hp
    cases q with
    | main => rfl
    | pending j =>
      obtain ⟨r, hr, hrc⟩ := hq
      exact (hqueue none fd r j hi hfd hr hrc).elim
    | worker w =>
      obtain ⟨x, hj, hx⟩ := hq
      obtain rfl := h.conn_inj fd x c hfd hx
      cases h.own.held_inj none (some w) fd hi hj
    | closed => exact absurd hq (hclosed fd hfd)
  | pending i =>
    obtain ⟨r, hr, hrc⟩ := hp
    cases q with
    | main =>
      obtain ⟨fd, hi, hfd⟩ := hq
      exact (hqueue none fd r i hi hfd hr hrc).elim
    | pending j =>
      obtain ⟨r', hr', hrc'⟩ := hq
      rw [h.pending_index_inj hr hr' (h.conn_inj _ _ c hrc hrc')]
    | worker w =>
      obtain ⟨fd, hi, hfd⟩ := hq
      exact (hqueue (some w) fd r i hi hfd hr hrc).elim
    | closed => exact absurd hq (hclosed _ hrc)
  | worker w =>
    obtain ⟨fd, hi, hfd⟩ := hp
    cases q with
    | main =>
      obtain ⟨x, hj, hx⟩ := hq
      obtain rfl := h.conn_inj fd x c hfd hx
      cases h.own.held_inj (some w) none fd hi hj
    | pending j =>
      obtain ⟨r, hr, hrc⟩ := hq
      exact (hqueue (some w) fd r j hi hfd hr hrc).elim
    | worker v =>
      obtain ⟨x, hj, hx⟩ := hq
      obtain rfl := h.conn_inj fd x c hfd hx
      rw [Option.some.inj (h.own.held_inj (some w) (some v) fd hi hj)]
    | closed => exact absurd hq (hclosed fd hfd)
  | closed =>
    cases q with
    | main =>
      obtain ⟨fd, -, hfd⟩ := hq
      exact absurd hp (hclosed fd hfd)
    | pending j =>
      obtain ⟨r, -, hrc⟩ := hq
      exact absurd hp (hclosed _ hrc)
    | worker v =>
      obtain ⟨fd, -, hfd⟩ := hq
      exact absurd hp (hclosed fd hfd)
    | closed => rfl

/-! ### Reading the log -/

/-- The connections passed to `requestHandle`, in order. -/
def handledSeq (log : List Event) : List (Option Conn) :=
  log.filterMap fun
    | .handled c _ => some c
    | _ => none

/-- The connections closed, in order. -/
def closedSeq (log : List Event) : List (Option Conn) :=
  log.filterMap fun
    | .closed c => some c
    | _ => none

theorem handledSeq_nodup {log : List Event} (h : log.Pairwise Event.Compat) :
    (handledSeq log).Nodup := by
  refine List.pairwise_filterMap.mpr (h.imp ?_)
  rintro e e' hc o ho o' ho'
  cases e <;> cases e' <;> simp_all [Event.Compat]

theorem closedSeq_nodup {log : List Event} (h : log.Pairwise Event.Compat) :
    (closedSeq log).Nodup := by
  refine List.pairwise_filterMap.mpr (h.imp ?_)
  rintro e e' hc o ho o' ho'
  cases e <;> cases e' <;> simp_all [Event.Compat]

/-- The clock is read once for a connection. -/
theorem recorded_unique {log : List Event} (h : log.Pairwise Event.Compat) {o : Option Conn}
    {tm tm' : Timeval} (h1 : .recorded o tm ∈ log) (h2 : .recorded o tm' ∈ log) : tm = tm' := by
  obtain ⟨i, hi, hi'⟩ := List.mem_iff_getElem.mp h1
  obtain ⟨j, hj, hj'⟩ := List.mem_iff_getElem.mp h2
  have hp := List.pairwise_iff_getElem.mp h
  rcases lt_trichotomy i j with hlt | rfl | hlt
  · have := hp i j hi hj hlt
    rw [hi', hj'] at this
    exact absurd rfl this
  · exact (Event.recorded.inj (hi'.symm.trans hj')).2
  · have := hp j i hj hi hlt
    rw [hi', hj'] at this
    exact absurd rfl this

/-- **Connection accounting.** In every reachable state every accepted connection
is at exactly one place: with the main thread, at one index of `pendingReqs`, with
one worker, or closed. It has been passed to `requestHandle` at most once and not
after it was closed, and closed at most once; every `close` and every
`requestHandle` acted on a connection, never on a number that is not open; and the
arrival time given to `requestHandle` is the one recorded for that connection. -/
theorem connection_accounting (h : (server cfg).Reachable s) :
    (∀ c, .accepted c ∈ s.log → ∃! p, s.At c p) ∧
    (handledSeq s.log).Nodup ∧ (closedSeq s.log).Nodup ∧
    (∀ pre post c a, s.log = pre ++ .handled c a :: post → .closed c ∉ pre) ∧
    (∀ c, .closed c ∈ s.log → ∃ k, c = some k ∧ .accepted k ∈ s.log) ∧
    (∀ c a, .handled c a ∈ s.log → ∃ k tm, c = some k ∧ .accepted k ∈ s.log ∧ a = some tm ∧
      .recorded c tm ∈ s.log ∧ ∀ tm', .recorded c tm' ∈ s.log → tm' = tm) := by
  have hI := HistInv.of_reachable h
  refine ⟨?_, handledSeq_nodup hI.ordered, closedSeq_nodup hI.ordered, ?_, ?_, ?_⟩
  · intro c hc
    obtain ⟨p, hp⟩ := hI.toOwnInv.exists_place ((hI.accepted_iff c).mp hc)
    exact ⟨p, hp, fun q hq => hI.toOwnInv.place_unique hq hp⟩
  · intro pre post c a hlog hcl
    have hord := hI.ordered
    rw [hlog] at hord
    exact (List.pairwise_append.mp hord).2.2 _ hcl _ List.mem_cons_self rfl
  · intro c hc
    obtain ⟨k, rfl, hk, -⟩ := hI.closed_spec c hc
    exact ⟨k, rfl, (hI.accepted_iff k).mpr hk⟩
  · intro c a ha
    obtain ⟨tm, rfl, hrec⟩ := hI.handled_spec c a ha
    obtain ⟨k, rfl, hk⟩ := hI.recorded_spec c tm hrec
    exact ⟨k, tm, rfl, (hI.accepted_iff k).mpr hk, rfl, hrec,
      fun tm' hrec' => recorded_unique hI.ordered hrec' hrec⟩

theorem connection_accounting_sample :
    .accepted 0 ∈ sampleState.log ∧ .accepted 1 ∈ sampleState.log ∧
    (∃! p, sampleState.At 0 p) ∧ (∃! p, sampleState.At 1 p) :=
  ⟨by decide, by decide,
    (connection_accounting sampleState_reachable).1 0 (by decide),
    (connection_accounting sampleState_reachable).1 1 (by decide)⟩

/-! ### The order of dispatch -/

/-- The connections accepted, in order. -/
def acceptedSeq (log : List Event) : List (Option Conn) :=
  log.filterMap fun
    | .accepted c => some (some c)
    | _ => none

/-- The connections taken by workers, in the order of their `removeFirstReq` calls. -/
def takenSeq (log : List Event) : List (Option Conn) :=
  log.filterMap fun
    | .taken c => some c
    | _ => none

/-- The numbers still to be taken, oldest first: the queue, then the connection
in the hands of the main thread. -/
def State.waitingFds (s : State cfg) : List Int :=
  s.pendingReqs.fds ++ s.main.held.toList

/-- What has been taken, followed by what waits, is a subsequence of what has been
accepted. -/
structure DispatchInv (s : State cfg) : Prop extends OwnInv s where
  in_order : (takenSeq s.log ++ s.waitingFds.map s.openFds).Sublist (acceptedSeq s.log)

theorem OwnInv.open_of_waiting (h : OwnInv s) {fd : Int} (hfd : fd ∈ s.waitingFds) :
    ∃ c, s.openFds fd = some c := by
  rcases List.mem_append.mp hfd with hfd | hfd
  · exact h.own.live_of_mem hfd
  · exact h.open_of_held (i := none) (Option.mem_toList.mp hfd)

/-- The moves after which less waits, and no number has changed hands. -/
theorem DispatchInv.of_sublist (h : DispatchInv s) (hO : OwnInv t)
    (htaken : takenSeq t.log = takenSeq s.log) (hacc : acceptedSeq t.log = acceptedSeq s.log)
    (hsub : t.waitingFds.Sublist s.waitingFds)
    (hopen : ∀ fd, t.openFds fd = s.openFds fd ∨ t.openFds fd = none) : DispatchInv t where
  toOwnInv := hO
  in_order := by
    have hsame : ∀ fd ∈ t.waitingFds, t.openFds fd = s.openFds fd := by
      intro fd hfd
      obtain ⟨c, hc⟩ := hO.open_of_waiting hfd
      apply (hopen fd).resolve_right
      intro hnone
      rw [hnone] at hc
      cases hc
    rw [htaken, hacc, List.map_congr_left hsame]
    exact ((hsub.map _).append_left _).trans h.in_order

theorem DispatchInv.initial : DispatchInv (State.initial cfg) where
  toOwnInv := OwnInv.initial
  in_order := List.Sublist.refl _

theorem DispatchInv.accept (h : DispatchInv s) {fd : Int} (hm : s.main = .accepting)
    (hfree : s.openFds fd = none) : DispatchInv (s.acceptConn fd) where
  toOwnInv := h.toOwnInv.accept hm hfree
  in_order := by
    have hold : s.waitingFds = s.pendingReqs.fds := by
      unfold State.waitingFds
      rw [hm]
      exact List.append_nil _
    have hkeep : s.pendingReqs.fds.map (s.acceptConn fd).openFds =
        s.pendingReqs.fds.map s.openFds := by
      refine List.map_congr_left fun x hx => Function.update_of_ne ?_ _ _
      rintro rfl
      obtain ⟨c, hc⟩ := h.own.live_of_mem hx
      rw [hfree] at hc
      cases hc
    have hnew : (s.acceptConn fd).openFds fd = some s.nextConn := Function.update_self _ _ _
    have htaken : takenSeq (s.acceptConn fd).log = takenSeq s.log := by
      simp [takenSeq, State.acceptConn]
    have hacc : acceptedSeq (s.acceptConn fd).log = acceptedSeq s.log ++ [some s.nextConn] := by
      simp [acceptedSeq, State.acceptConn]
    have hin := h.in_order
    rw [hold] at hin
    rw [htaken, hacc]
    change (_ ++ (s.pendingReqs.fds ++ [fd]).map (s.acceptConn fd).openFds).Sublist _
    rw [List.map_append, hkeep, List.map_singleton, hnew, ← List.append_assoc]
    exact hin.append (List.Sublist.refl _)

theorem DispatchInv.dropPending (h : DispatchInv s) {i : ℕ} {r : Req}
    (hr : s.pendingReqs.reqs[i]? = some r) : DispatchInv (s.dropPending i) := by
  have hO := h.toOwnInv.dropPending hr
  rw [State.dropPending_eq hr] at hO ⊢
  refine h.of_sublist hO ?_ ?_ ?_ (openFds_closed_or s.openFds r.data)
  · simp [takenSeq, State.closeFd]
  · simp [acceptedSeq, State.closeFd]
  · exact ((List.eraseIdx_sublist _ _).map _).append (List.Sublist.refl _)

theorem DispatchInv.enqueue (h : DispatchInv s) {fd : Int} {tm : Timeval}
    (hm : s.main.Decides fd tm) (wake : Fin cfg.maxThreads → Bool)
    (hroom : s.pendingReqs.getQsize + s.busyThreads.getQsize < cfg.maxTasks) :
    DispatchInv (s.enqueue wake fd tm) := by
  have hlog := h.log_enqueue wake hroom fd tm
  -- the connection goes from the main thread's hands to the end of the queue
  have hwait : (s.enqueue wake fd tm).waitingFds = s.waitingFds := by
    change (s.enqueue wake fd tm).pendingReqs.fds ++ [] = s.pendingReqs.fds ++ s.main.held.toList
    rw [h.pending_enqueue wake hroom, hm.held, List.append_nil]
    exact List.map_append
  refine h.of_sublist (h.toOwnInv.enqueue hm wake hroom) (by rw [hlog]) (by rw [hlog]) ?_
    (fun _ => Or.inl rfl)
  rw [hwait]

theorem DispatchInv.take (h : DispatchInv s) {w : Fin cfg.maxThreads} (tt1 : Timeval) {r : Req}
    {rs : List Req} (hw : (s.workers w).Ready) (hq : s.pendingReqs.reqs = r :: rs) :
    DispatchInv (s.takeSection w tt1) := by
  have hO := h.toOwnInv.take tt1 hw hq
  have hfull := ReqQ.isQfull_of_room (h.busy_room hw)
  have hin := h.in_order
  rw [State.takeSection_cons hq] at hO ⊢
  refine ⟨hO, ?_⟩
  -- the head of what waits becomes the last taken
  have hwait : s.waitingFds = r.data :: (rs.map Req.data ++ s.main.held.toList) := by
    simp [State.waitingFds, ReqQ.fds, hq]
  rw [hwait, List.map_cons] at hin
  rw [hfull]
  simp only [State.setWorker, takenSeq, acceptedSeq, State.waitingFds, ReqQ.fds] at hin ⊢
  simpa using hin

theorem dispatch_stable : Stable (DispatchInv : State cfg → Prop) where
  bounded _ h := h.total_le
  accept s fd h hm hf := h.accept hm hf
  record s fd t h hm := by
    refine h.of_sublist (own_stable.record s fd t h.toOwnInv hm) ?_ ?_ ?_ (fun _ => Or.inl rfl)
    · simp [takenSeq, State.recordArrival]
    · simp [acceptedSeq, State.recordArrival]
    · simp [State.waitingFds, State.recordArrival, hm, MainPc.held]
  dropPending s fd t i r h _ hr := h.dropPending hr
  -- what is dropped only makes the waiting sequence shorter
  dropNew s fd t h hm := by
    refine h.of_sublist (own_stable.dropNew s fd t h.toOwnInv hm) ?_ ?_ ?_
      (openFds_closed_or s.openFds fd)
    · simp [takenSeq, State.dropNew, State.closeFd]
    · simp [acceptedSeq, State.dropNew, State.closeFd]
    · exact List.Sublist.append (List.Sublist.refl _) (List.nil_sublist _)
  enqueue s fd t wake h hm hroom _ := h.enqueue hm wake hroom
  blockWait s fd t h hm hfull := by
    refine h.of_sublist (own_stable.blockWait s fd t h.toOwnInv hm hfull) rfl rfl ?_
      (fun _ => Or.inl rfl)
    unfold State.waitingFds
    rw [hm.held]
    exact List.Sublist.refl _
  bfWait s fd t h hm hfull hb := by
    refine h.of_sublist (own_stable.bfWait s fd t h.toOwnInv hm hfull hb) rfl rfl ?_
      (fun _ => Or.inl rfl)
    unfold State.waitingFds
    rw [hm.held]
    exact List.Sublist.refl _
  signalMain s h := by
    refine h.of_sublist (own_stable.signalMain s h.toOwnInv) rfl rfl ?_ (fun _ => Or.inl rfl)
    have hheld : s.signalMain.main.held = s.main.held := congrFun held_signalMain none
    unfold State.waitingFds
    rw [hheld]
    exact List.Sublist.refl _
  sleep s w h hw hnil :=
    h.of_sublist (own_stable.sleep s w h.toOwnInv hw hnil) rfl rfl (List.Sublist.refl _)
      (fun _ => Or.inl rfl)
  wake s w h hw :=
    h.of_sublist (own_stable.wake s w h.toOwnInv hw) rfl rfl (List.Sublist.refl _)
      (fun _ => Or.inl rfl)
  -- the head of the waiting sequence is appended to those taken
  take s w tt1 r rs h hw hq := h.take tt1 hw hq
  handle s w fd arrival h hw := by
    refine h.of_sublist (own_stable.handle s w fd arrival h.toOwnInv hw) ?_ ?_
      (List.Sublist.refl _) (fun _ => Or.inl rfl)
    · simp [takenSeq, State.handleReq, State.setWorker]
    · simp [acceptedSeq, State.handleReq, State.setWorker]
  close s w fd h hw := by
    refine h.of_sublist (own_stable.close s w fd h.toOwnInv hw) ?_ ?_
      (List.Sublist.refl _) (openFds_closed_or s.openFds fd)
    · simp [takenSeq, State.closeReq, State.closeFd, State.setWorker]
    · simp [acceptedSeq, State.closeReq, State.closeFd, State.setWorker]
  finish s w fd h hw := by
    refine h.of_sublist (own_stable.finish s w fd h.toOwnInv hw) rfl rfl ?_ (fun _ => Or.inl rfl)
    have hheld : (s.finishSection w fd).main.held = s.main.held := congrFun held_signalMain none
    unfold State.waitingFds
    rw [hheld]
    exact List.Sublist.refl _

/-- **Dispatch order.** For every policy, every random choice and every
interleaving, the sequence of connections taken by the workers is a subsequence of
the sequence of connections accepted. -/
theorem dispatch_order (h : (server cfg).Reachable s) :
    (takenSeq s.log).Sublist (acceptedSeq s.log) := by
  have hI : DispatchInv s := dispatch_stable.reachable DispatchInv.initial h
  exact (List.sublist_append_left _ _).trans hI.in_order

theorem dispatch_order_sample :
    takenSeq sampleState.log = [some 0] ∧ acceptedSeq sampleState.log = [some 0, some 1] ∧
    (takenSeq sampleState.log).Sublist (acceptedSeq sampleState.log) :=
  ⟨rfl, rfl, dispatch_order sampleState_reachable⟩

end Server
end OsHomework
