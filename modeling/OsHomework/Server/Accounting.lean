import OsHomework.Server.Admission
import OsHomework.Lib.Ownership

/-!
# Connection accounting

Every accepted connection is in one place at a time: with the main thread, in
`pending_reqs`, with a worker, or closed. The proof has two levels.

* At the level of descriptor numbers, `Ownership` says that the numbers now open
  are exactly those the main thread, the workers and `pending_reqs` are
  responsible for, each of them once. This is what rules out a `close` of a number
  that has been handed out again: a number in use always has an owner, and only
  its owner closes it.
* At the level of connections, `ConnTable` says that an accepted connection is
  open under one number or closed for good.

`HistInv` adds what the log says about the connections still open: whose arrival
time has been read, who has been passed to `requestHandle`, and in which order
the events of one connection come.
-/

namespace OsHomework
namespace Server

variable {cfg : Config} {s t : State cfg}

/-! ### Who is responsible for a number -/

/-- The descriptor each thread is responsible for; `none` is the main thread. -/
def State.held (s : State cfg) : Option (Fin cfg.maxThreads) → Option Int
  | none => s.main.held
  | some w => (s.workers w).held

theorem held_of_main {pc : MainPc} (h : s.main = pc) : s.held none = pc.held := by
  rw [← h]
  rfl

theorem held_of_worker {w : Fin cfg.maxThreads} {pc : WorkerPc} (h : s.workers w = pc) :
    s.held (some w) = pc.held := by
  rw [← h]
  rfl

theorem held_main_update {m : MainPc} :
    State.held { s with main := m } = Function.update s.held none m.held := by
  funext i
  cases i with
  | none => rw [Function.update_self]; rfl
  | some w => rw [Function.update_of_ne (by simp)]; rfl

theorem held_setWorker {w : Fin cfg.maxThreads} {pc : WorkerPc} :
    (s.setWorker w pc).held = Function.update s.held (some w) pc.held := by
  funext i
  cases i with
  | none => rw [Function.update_of_ne (by simp)]; rfl
  | some v =>
    by_cases hv : v = w
    · subst hv
      rw [Function.update_self]
      simp [State.held, State.setWorker]
    · rw [Function.update_of_ne (by simpa using hv)]
      simp [State.held, State.setWorker, hv]

theorem held_setWorker_same {w : Fin cfg.maxThreads} {pc : WorkerPc}
    (h : pc.held = (s.workers w).held) : (s.setWorker w pc).held = s.held := by
  rw [held_setWorker, h]
  exact Function.update_eq_self (some w) s.held

theorem held_signalWorkers (wake : Fin cfg.maxThreads → Bool) :
    (s.signalWorkers wake).held = s.held := by
  funext i
  cases i with
  | none => rfl
  | some w =>
    change (if (s.workers w).asleep && wake w then WorkerPc.waiting true
      else s.workers w).held = (s.workers w).held
    split
    · next h =>
      rw [WorkerPc.asleep_iff.mp (Bool.and_eq_true_iff.mp h).1]
      rfl
    · rfl

theorem held_signalMain : s.signalMain.held = s.held := by
  funext i
  cases i with
  | none =>
    change (State.signalMain s).main.held = s.main.held
    unfold State.signalMain
    cases s.main <;> rfl
  | some w => rfl

/-- The numbers now open. -/
def State.openSet (s : State cfg) : Set Int := {fd | ∃ c, s.openFds fd = some c}

theorem openSet_update_some {fd : Int} {c : Conn}
    (h : t.openFds = Function.update s.openFds fd (some c)) : t.openSet = insert fd s.openSet := by
  ext x
  simp only [State.openSet, Set.mem_ofPred_eq, Set.mem_insert_iff, h]
  by_cases hx : x = fd
  · subst hx
    simp
  · simp [hx]

theorem openSet_update_none {fd : Int} (h : t.openFds = Function.update s.openFds fd none) :
    t.openSet = s.openSet \ {fd} := by
  ext x
  simp only [State.openSet, Set.mem_ofPred_eq, Set.mem_sdiff, Set.mem_singleton_iff, h]
  by_cases hx : x = fd
  · subst hx
    simp
  · simp [hx]

/-! ### Connections -/

/-- An accepted connection is open under one number or closed for good. -/
structure ConnTable (s : State cfg) : Prop where
  conn_inj : ∀ fd fd' c, s.openFds fd = some c → s.openFds fd' = some c → fd = fd'
  conn_lt : ∀ fd c, s.openFds fd = some c → c < s.nextConn
  conn_cases : ∀ c, c < s.nextConn → (∃ fd, s.openFds fd = some c) ∨ .closed (some c) ∈ s.log
  closed_spec : ∀ o, .closed o ∈ s.log →
    ∃ c, o = some c ∧ c < s.nextConn ∧ ∀ fd, s.openFds fd ≠ some c
  accepted_iff : ∀ c, .accepted c ∈ s.log ↔ c < s.nextConn

/-- The moves that neither accept nor close. -/
theorem ConnTable.frame (h : ConnTable s) (hfd : t.openFds = s.openFds)
    (hn : t.nextConn = s.nextConn) (hc : ∀ o, .closed o ∈ t.log ↔ .closed o ∈ s.log)
    (ha : ∀ c, .accepted c ∈ t.log ↔ .accepted c ∈ s.log) : ConnTable t where
  conn_inj := by rw [hfd]; exact h.conn_inj
  conn_lt := by rw [hfd, hn]; exact h.conn_lt
  conn_cases c := by rw [hfd, hn, hc]; exact h.conn_cases c
  closed_spec o := by rw [hfd, hn, hc]; exact h.closed_spec o
  accepted_iff c := by rw [hn, ha]; exact h.accepted_iff c

theorem ConnTable.accept (h : ConnTable s) {fd : Int} (hfree : s.openFds fd = none) :
    ConnTable (s.acceptConn fd) where
  conn_inj x y c hx hy := by
    simp only [State.acceptConn, Function.update_apply] at hx hy
    split at hx <;> split at hy
    · next h1 h2 => rw [h1, h2]
    · -- the new connection has a number that none before it had
      obtain rfl := Option.some.inj hx
      exact absurd (h.conn_lt y _ hy) (lt_irrefl _)
    · obtain rfl := Option.some.inj hy
      exact absurd (h.conn_lt x _ hx) (lt_irrefl _)
    · exact h.conn_inj x y c hx hy
  conn_lt x c hx := by
    change c < s.nextConn + 1
    simp only [State.acceptConn, Function.update_apply] at hx
    split at hx
    · obtain rfl := Option.some.inj hx
      exact Nat.lt_succ_self _
    · exact Nat.lt_succ_of_lt (h.conn_lt x c hx)
  conn_cases c hc := by
    rcases Nat.lt_succ_iff_lt_or_eq.mp (show c < s.nextConn + 1 from hc) with hc | rfl
    · rcases h.conn_cases c hc with ⟨x, hx⟩ | hcl
      · -- its file descriptor was not open, so no other connection loses its own
        refine Or.inl ⟨x, ?_⟩
        change Function.update s.openFds fd _ x = _
        rwa [Function.update_of_ne]
        rintro rfl
        rw [hfree] at hx
        exact absurd hx (by simp)
      · exact Or.inr (List.mem_append_left _ hcl)
    · exact Or.inl ⟨fd, Function.update_self _ _ _⟩
  -- `accept` writes no `closed` event, and the new connection was never closed
  closed_spec o ho := by
    have ho' : Event.closed o ∈ s.log := by simpa [State.acceptConn] using ho
    obtain ⟨c, rfl, hc, hnot⟩ := h.closed_spec o ho'
    refine ⟨c, rfl, Nat.lt_succ_of_lt hc, fun x hx => ?_⟩
    simp only [State.acceptConn, Function.update_apply] at hx
    split at hx
    · obtain rfl := Option.some.inj hx
      exact lt_irrefl _ hc
    · exact hnot x hx
  -- one more number, and one more event
  accepted_iff c := by
    change _ ∈ s.log ++ [_] ↔ c < s.nextConn + 1
    rw [List.mem_append, h.accepted_iff, List.mem_singleton, Event.accepted.injEq]
    exact Nat.lt_succ_iff_lt_or_eq.symm

/-- Closing a number that is open closes its connection for good. -/
theorem ConnTable.close (h : ConnTable s) {fd : Int} {c : Conn} (hopen : s.openFds fd = some c)
    (hfd : t.openFds = Function.update s.openFds fd none) (hn : t.nextConn = s.nextConn)
    (hlog : t.log = s.log ++ [.closed (some c)]) : ConnTable t where
  -- every number that is still open was open before
  conn_inj x y k hx hy := by
    simp only [hfd, Function.update_apply] at hx hy
    split at hx <;> split at hy <;> first | exact absurd hx (by simp) | skip
    · exact absurd hy (by simp)
    · exact h.conn_inj x y k hx hy
  conn_lt x k hx := by
    simp only [hfd, Function.update_apply] at hx
    split at hx
    · exact absurd hx (by simp)
    · exact hn ▸ h.conn_lt x k hx
  conn_cases k hk := by
    rw [hlog, List.mem_append]
    rcases h.conn_cases k (hn ▸ hk) with ⟨x, hx⟩ | hcl
    · -- the connection at `fd` goes from open to closed, all others stay
      by_cases hxf : x = fd
      · subst hxf
        rw [hopen] at hx
        exact Or.inr (Or.inr (by simpa using (Option.some.inj hx).symm))
      · exact Or.inl ⟨x, by rw [hfd, Function.update_of_ne hxf]; exact hx⟩
    · exact Or.inr (Or.inl hcl)
  closed_spec o ho := by
    rw [hlog, List.mem_append, List.mem_singleton, Event.closed.injEq] at ho
    rcases ho with ho | rfl
    · -- closed before: it does not come back
      obtain ⟨k, rfl, hk, hnot⟩ := h.closed_spec o ho
      refine ⟨k, rfl, hn ▸ hk, fun x hx => ?_⟩
      simp only [hfd, Function.update_apply] at hx
      split at hx
      · exact absurd hx (by simp)
      · exact hnot x hx
    · refine ⟨c, rfl, hn ▸ h.conn_lt fd c hopen, fun x hx => ?_⟩
      simp only [hfd, Function.update_apply] at hx
      split at hx
      · exact absurd hx (by simp)
      · -- a connection has one number, so `c` is open under no other
        next hne => exact hne (h.conn_inj x fd c hx hopen)
  accepted_iff k := by
    rw [hlog, hn, List.mem_append, h.accepted_iff]
    simp

/-! ### Ownership along the moves -/

/-- The ownership invariant, on top of the counting one. -/
structure OwnInv (s : State cfg) : Prop extends AdmissionInv s, ConnTable s where
  own : Ownership s.held s.pendingReqs.fds s.openSet

theorem OwnInv.open_of_held (h : OwnInv s) {i : Option (Fin cfg.maxThreads)} {fd : Int}
    (hi : s.held i = some fd) : ∃ c, s.openFds fd = some c :=
  h.own.live_of_held hi

theorem OwnInv.open_of_pending (h : OwnInv s) {r : Req} (hr : r ∈ s.pendingReqs.reqs) :
    ∃ c, s.openFds r.data = some c :=
  h.own.live_of_mem (List.mem_map_of_mem hr)

/-- The moves that leave every number with its owner. -/
theorem OwnInv.frame (h : OwnInv s) (hA : AdmissionInv t) (hheld : t.held = s.held)
    (hp : t.pendingReqs = s.pendingReqs) (hfd : t.openFds = s.openFds)
    (hn : t.nextConn = s.nextConn) (hc : ∀ o, .closed o ∈ t.log ↔ .closed o ∈ s.log)
    (ha : ∀ c, .accepted c ∈ t.log ↔ .accepted c ∈ s.log) : OwnInv t where
  toAdmissionInv := hA
  toConnTable := h.toConnTable.frame hfd hn hc ha
  own := by
    have hset : t.openSet = s.openSet := by simp only [State.openSet, hfd]
    rw [hheld, hp, hset]
    exact h.own

theorem OwnInv.initial : OwnInv (State.initial cfg) where
  toAdmissionInv := AdmissionInv.initial
  conn_inj _ _ _ h := by cases h
  conn_lt _ _ h := by cases h
  conn_cases _ h := absurd h (Nat.not_lt_zero _)
  closed_spec _ h := absurd h List.not_mem_nil
  accepted_iff _ := by simp [State.initial]
  own :=
    { held_inj := by
        intro i j a hi
        cases i <;> cases hi
      held_queue := by
        intro i a hi
        cases i <;> cases hi
      queue_nodup := List.nodup_nil
      live_iff := by
        intro a
        constructor
        · rintro ⟨c, hc⟩
          cases hc
        · rintro (⟨i, hi⟩ | ha)
          · cases i <;> cases hi
          · exact absurd ha List.not_mem_nil }

theorem OwnInv.accept (h : OwnInv s) {fd : Int} (hm : s.main = .accepting)
    (hfree : s.openFds fd = none) : OwnInv (s.acceptConn fd) where
  toAdmissionInv := admission_stable.accept s fd h.toAdmissionInv hm hfree
  toConnTable := h.toConnTable.accept hfree
  own := by
    have hnot : fd ∉ s.openSet := by
      rintro ⟨c, hc⟩
      rw [hfree] at hc
      cases hc
    have hheld : (s.acceptConn fd).held = Function.update s.held none (some fd) :=
      held_main_update (m := .accepted fd)
    rw [openSet_update_some rfl, hheld]
    exact h.own.acquire (held_of_main hm) hnot

theorem OwnInv.dropPending (h : OwnInv s) {i : ℕ} {r : Req}
    (hr : s.pendingReqs.reqs[i]? = some r) : OwnInv (s.dropPending i) := by
  have hA := h.toAdmissionInv.dropPending hr
  obtain ⟨c, hc⟩ := h.open_of_pending (List.mem_of_getElem? hr)
  rw [State.dropPending_eq hr] at hA ⊢
  refine ⟨hA, h.toConnTable.close hc rfl rfl ?_, ?_⟩
  · change s.log ++ [Event.closed (s.openFds r.data)] = _
    rw [hc]
  · rw [openSet_update_none (s := s) rfl]
    change Ownership s.held ((s.pendingReqs.reqs.eraseIdx i).map Req.data) _
    rw [← List.eraseIdx_map]
    apply h.own.drop
    change (s.pendingReqs.reqs.map Req.data)[i]? = some r.data
    rw [List.getElem?_map, hr]
    rfl

theorem OwnInv.dropNew (h : OwnInv s) {fd : Int} {tm : Timeval} (hm : s.main.Decides fd tm) :
    OwnInv (s.dropNew fd) := by
  obtain ⟨c, hc⟩ := h.open_of_held (i := none) hm.held
  refine ⟨admission_stable.dropNew s fd tm h.toAdmissionInv hm,
    h.toConnTable.close hc rfl rfl ?_, ?_⟩
  · change s.log ++ [Event.closed (s.openFds fd)] = _
    rw [hc]
  · have hheld : (s.dropNew fd).held = Function.update s.held none none :=
      held_main_update (m := .accepting)
    rw [openSet_update_none (s := s) rfl, hheld]
    exact h.own.release hm.held

theorem OwnInv.enqueue (h : OwnInv s) {fd : Int} {tm : Timeval} (hm : s.main.Decides fd tm)
    (wake : Fin cfg.maxThreads → Bool)
    (hroom : s.pendingReqs.getQsize + s.busyThreads.getQsize < cfg.maxTasks) :
    OwnInv (s.enqueue wake fd tm) := by
  have hlog := h.log_enqueue wake hroom fd tm
  refine ⟨h.toAdmissionInv.enqueue fd tm wake hroom,
    h.toConnTable.frame rfl rfl (by simp [hlog]) (by simp [hlog]), ?_⟩
  have hheld : (s.enqueue wake fd tm).held = Function.update s.held none none :=
    (held_signalWorkers wake).trans (held_main_update (m := .accepting))
  have hfds : (s.enqueue wake fd tm).pendingReqs.fds = s.pendingReqs.fds ++ [fd] := by
    rw [h.pending_enqueue wake hroom]
    exact List.map_append
  rw [hheld, hfds]
  exact h.own.push hm.held

theorem OwnInv.take (h : OwnInv s) {w : Fin cfg.maxThreads} (tt1 : Timeval) {r : Req}
    {rs : List Req} (hw : (s.workers w).Ready) (hq : s.pendingReqs.reqs = r :: rs) :
    OwnInv (s.takeSection w tt1) := by
  have hA := h.toAdmissionInv.take tt1 hw hq
  rw [State.takeSection_cons hq] at hA ⊢
  refine ⟨hA, h.toConnTable.frame rfl rfl ?_ ?_, ?_⟩
  · intro o
    simp [State.setWorker]
  · intro c
    simp [State.setWorker]
  · rw [held_setWorker]
    have hown := h.own
    unfold ReqQ.fds at hown
    rw [hq, List.map_cons] at hown
    exact hown.pop hw.held

theorem OwnInv.closeReq (h : OwnInv s) {w : Fin cfg.maxThreads} {fd : Int}
    (hw : s.workers w = .handled fd) : OwnInv (s.closeReq w fd) := by
  have hi : s.held (some w) = some fd := held_of_worker hw
  obtain ⟨c, hc⟩ := h.open_of_held hi
  refine ⟨admission_stable.close s w fd h.toAdmissionInv hw,
    h.toConnTable.close hc rfl rfl ?_, ?_⟩
  · change s.log ++ [Event.closed (s.openFds fd)] = _
    rw [hc]
  · rw [openSet_update_none (s := s) rfl]
    unfold State.closeReq
    rw [held_setWorker]
    exact h.own.release hi

theorem own_stable : Stable (OwnInv : State cfg → Prop) where
  bounded _ h := h.total_le
  accept s fd h hm hf := h.accept hm hf
  -- the sections that move no request leave everything where it was
  record s fd t h hm := by
    refine h.frame (admission_stable.record s fd t h.toAdmissionInv hm) ?_ rfl rfl rfl ?_ ?_
    · apply (held_main_update (m := .deciding fd t)).trans
      exact Function.update_eq_iff.mpr ⟨by change _ = s.main.held; rw [hm]; rfl, fun _ _ => rfl⟩
    · simp [State.recordArrival]
    · simp [State.recordArrival]
  dropPending s fd t i r h _ hr := h.dropPending hr
  dropNew s fd t h hm := h.dropNew hm
  enqueue s fd t wake h hm hroom _ := h.enqueue hm wake hroom
  blockWait s fd t h hm hfull := by
    refine h.frame (admission_stable.blockWait s fd t h.toAdmissionInv hm hfull) ?_ rfl rfl rfl
      (fun _ => Iff.rfl) (fun _ => Iff.rfl)
    apply (held_main_update (m := .blockWait fd t false)).trans
    exact Function.update_eq_iff.mpr ⟨hm.held.symm, fun _ _ => rfl⟩
  bfWait s fd t h hm hfull hb := by
    refine h.frame (admission_stable.bfWait s fd t h.toAdmissionInv hm hfull hb) ?_ rfl rfl rfl
      (fun _ => Iff.rfl) (fun _ => Iff.rfl)
    apply (held_main_update (m := .bfWait fd t false)).trans
    exact Function.update_eq_iff.mpr ⟨hm.held.symm, fun _ _ => rfl⟩
  signalMain s h :=
    h.frame (admission_stable.signalMain s h.toAdmissionInv) held_signalMain rfl rfl rfl
      (fun _ => Iff.rfl) (fun _ => Iff.rfl)
  sleep s w h hw hnil :=
    h.frame (admission_stable.sleep s w h.toAdmissionInv hw hnil)
      (held_setWorker_same hw.held.symm) rfl rfl rfl (fun _ => Iff.rfl) (fun _ => Iff.rfl)
  wake s w h hw :=
    h.frame (admission_stable.wake s w h.toAdmissionInv hw)
      (held_setWorker_same (by rw [hw]; rfl)) rfl rfl rfl (fun _ => Iff.rfl) (fun _ => Iff.rfl)
  -- a request goes from the queue to a worker
  take s w tt1 r rs h hw hq := h.take tt1 hw hq
  handle s w fd arrival h hw :=
    h.frame (admission_stable.handle s w fd arrival h.toAdmissionInv hw)
      (held_setWorker_same (s := { s with log := _ }) (by rw [hw]; rfl)) rfl rfl rfl
      (by simp [State.handleReq, State.setWorker]) (by simp [State.handleReq, State.setWorker])
  close s w fd h hw := h.closeReq hw
  finish s w fd h hw := by
    refine h.frame (h.toAdmissionInv.finish hw) ?_ rfl rfl rfl (fun _ => Iff.rfl)
      (fun _ => Iff.rfl)
    apply held_signalMain.trans
    exact held_setWorker_same (s := { s with busyThreads := _ }) (by rw [hw]; rfl)

theorem OwnInv.of_reachable (h : (server cfg).Reachable s) : OwnInv s :=
  own_stable.reachable OwnInv.initial h

end Server
end OsHomework
