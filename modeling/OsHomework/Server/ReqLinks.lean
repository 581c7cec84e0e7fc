import OsHomework.Lib.DoublyLinked
import OsHomework.Server.ReqList

/-!
# The links of the request queue

What the operations of `reqQ.c` do to the nodes. `ReqList.Represents` says which list of
descriptors and times a structure stands for, and there is one lemma for each operation that says
what it returns and which list it leaves. For the operations that write, the changes to the links
come first, as facts about `ReqList.Shape` that do not mention `cur_size`.
-/

namespace OsHomework
namespace Server

namespace ReqList

/-! ### What the nodes hold -/

section Views

variable (nodes : ℕ → Option ReqNode) (p : ℕ) (o : Option ReqNode)

/-- The `next` link of a node. -/
def nextOf (p : ℕ) : ℕ := (nodes p).elim 0 ReqNode.next

/-- The `previous` link of a node, when it has been written. -/
def prevOf (p : ℕ) : Option ℕ := (nodes p).bind ReqNode.previous

/-- The descriptor and the time a node holds, when both have been written. -/
def entryOf (p : ℕ) : Option (Int × ℕ) :=
  (nodes p).bind fun n => n.insertionTime.map fun t => (n.data, t)

@[simp] theorem nextOf_update :
    nextOf (Function.update nodes p o)
      = Function.update (nextOf nodes) p (o.elim 0 ReqNode.next) :=
  Function.comp_update (fun o : Option ReqNode => o.elim 0 ReqNode.next) nodes p o

@[simp] theorem prevOf_update :
    prevOf (Function.update nodes p o)
      = Function.update (prevOf nodes) p (o.bind ReqNode.previous) :=
  Function.comp_update (fun o : Option ReqNode => o.bind ReqNode.previous) nodes p o

@[simp] theorem entryOf_update :
    entryOf (Function.update nodes p o)
      = Function.update (entryOf nodes) p
          (o.bind fun n => n.insertionTime.map fun t => (n.data, t)) :=
  Function.comp_update
    (fun o : Option ReqNode => o.bind fun n => n.insertionTime.map fun t => (n.data, t)) nodes p o

end Views

variable {nodes : ℕ → Option ReqNode} {q q' : ReqList} {A pre post : List ℕ}
  {L : List (Int × ℕ)} {a b p r : ℕ} {n : ReqNode}

theorem nextOf_eq (h : nodes p = some n) : nextOf nodes p = n.next := by
  rw [nextOf, h, Option.elim_some]

theorem prevOf_eq (h : nodes p = some n) : prevOf nodes p = n.previous := by
  rw [prevOf, h, Option.bind_some]

theorem entryOf_eq (h : nodes p = some n) :
    entryOf nodes p = n.insertionTime.map fun t => (n.data, t) := by
  rw [entryOf, h, Option.bind_some]

/-! A write that keeps a member leaves the view of that member as it was. -/

theorem update_nextOf (h : nodes p = some n) :
    Function.update (nextOf nodes) p n.next = nextOf nodes := by
  rw [← nextOf_eq h, Function.update_eq_self]

theorem update_prevOf (h : nodes p = some n) :
    Function.update (prevOf nodes) p n.previous = prevOf nodes := by
  rw [← prevOf_eq h, Function.update_eq_self]

theorem update_entryOf (h : nodes p = some n) :
    Function.update (entryOf nodes) p (n.insertionTime.map fun t => (n.data, t))
      = entryOf nodes := by
  rw [← entryOf_eq h, Function.update_eq_self]

/-- A node that holds an entry is live, and its two members are that entry. -/
theorem node_of_entryOf {e : Int × ℕ} (h : entryOf nodes p = some e) :
    ∃ n, nodes p = some n ∧ n.data = e.1 ∧ n.insertionTime = some e.2 := by
  obtain ⟨n, hn, hmap⟩ := Option.bind_eq_some_iff.mp h
  obtain ⟨t, ht, rfl⟩ := Option.map_eq_some_iff.mp hmap
  exact ⟨n, hn, rfl, ht⟩

theorem store_eq (h : q.nodes p = some n) (f : ReqNode → ReqNode) :
    q.store p f = some { q with nodes := Function.update q.nodes p (some (f n)) } := by
  rw [store, h]
  rfl

theorem free_eq (h : q.nodes p = some n) :
    q.free p = some { q with nodes := Function.update q.nodes p none } := by
  rw [free, h]
  rfl

/-! ### Which list a structure stands for -/

/-- The nodes `A` are linked both ways from `head` to `tail`, hold the entries `L` in that order,
and there are no other nodes. The back link of the head is left open. -/
structure Shape (q : ReqList) (A : List ℕ) (L : List (Int × ℕ)) : Prop where
  links : Linked (nextOf q.nodes) (prevOf q.nodes) q.head A
  tail_eq : q.tail = A.getLastD 0
  entries : A.map (entryOf q.nodes) = L.map some
  owned : ∀ p, q.nodes p ≠ none → p ∈ A

/-- The structure stands for `L`: its nodes do, and `cur_size` counts them. -/
structure Represents (q : ReqList) (A : List ℕ) (L : List (Int × ℕ)) : Prop
    extends q.Shape A L where
  curSize_eq : q.curSize = L.length

namespace Shape

theorem length_eq (h : q.Shape A L) : A.length = L.length := by
  simpa using congrArg List.length h.entries

theorem entryOf_getElem {i : ℕ} {e : Int × ℕ} (h : q.Shape A L) (ha : A[i]? = some a)
    (he : L[i]? = some e) : entryOf q.nodes a = some e := by
  have hi := congrArg (fun l => l[i]?) h.entries
  simpa [ha, he] using hi

theorem live (h : q.Shape A L) (ha : a ∈ A) : ∃ n, q.nodes a = some n := by
  have hmem : entryOf q.nodes a ∈ L.map some := h.entries ▸ List.mem_map_of_mem ha
  obtain ⟨e, -, he⟩ := List.mem_map.mp hmem
  obtain ⟨n, hn, -⟩ := node_of_entryOf he.symm
  exact ⟨n, hn⟩

theorem ne_zero (h : q.Shape A L) (ha : a ∈ A) : a ≠ 0 :=
  h.links.forth.ne_zero a ha

/-- An address `malloc` can answer is not one of the nodes. -/
theorem not_mem_of_malloc (h : q.Shape A L) (hr : q.MallocAnswer r) : r ∉ A := by
  intro hmem
  obtain ⟨n, hn⟩ := h.live hmem
  rw [hr.2] at hn
  cases hn

end Shape

/-! ### One lemma for each operation -/

theorem Represents.isQempty_iff (h : q.Represents A L) : q.isQempty = true ↔ L = [] := by
  rw [isQempty, beq_iff_eq, h.curSize_eq, Int.natCast_eq_zero, List.length_eq_zero_iff]

/-- The first request: the `previous` link of its node stays unwritten. -/
theorem Shape.insert_first (h : q.Shape [] []) (hr : r ≠ 0) (fd : Int) (tt : ℕ) (size : Int) :
    Shape { q with
      curSize := size, head := r, tail := r,
      nodes := Function.update q.nodes r (some ⟨some tt, fd, 0, none⟩) } [r] [(fd, tt)] where
  links := .singleton hr (by simp)
  tail_eq := rfl
  entries := by simp
  owned := by
    intro p hp
    by_cases hpr : p = r
    · exact List.mem_singleton.mpr hpr
    · simp only [Function.update_of_ne hpr] at hp
      exact absurd (h.owned p hp) List.not_mem_nil

/-- A request behind another: its node and the old tail lead to each other. -/
theorem Shape.insert_last {t : ℕ} (h : q.Shape (A ++ [t]) L) (hr : r ≠ 0) (hmem : r ∉ A ++ [t])
    (hn : q.nodes t = some n) (fd : Int) (tt : ℕ) (size : Int) :
    Shape { q with
      curSize := size, tail := r,
      nodes := Function.update (Function.update q.nodes t (some { n with next := r })) r
        (some ⟨some tt, fd, 0, some t⟩) } (A ++ [t] ++ [r]) (L ++ [(fd, tt)]) := by
  have hne : ∀ x ∈ A ++ [t], x ≠ r := fun x hx hxr => hmem (hxr ▸ hx)
  have htr : t ≠ r := hne t (by simp)
  have hxt : ∀ x ∈ A, x ≠ t := by
    intro x hx hxt
    exact List.disjoint_of_nodup_append h.links.nodup hx (List.mem_singleton.mpr hxt)
  refine ⟨?_, by simp, ?_, ?_⟩
  · -- the links: `t` leads to `r` from now on, and `r` back to `t`
    refine h.links.append hmem hr (fun x hx => ?_) ?_ (by simp) (fun x hx => ?_) (by simp)
    · have hxr : x ≠ r := hne x (List.mem_append_left [t] hx)
      simp [Function.update_of_ne hxr, Function.update_of_ne (hxt x hx)]
    · simp [Function.update_of_ne htr]
    · -- the old tail changes its `next` link only
      simp only [prevOf_update]
      rw [Function.update_of_ne (hne x hx)]
      exact congrFun (update_prevOf hn) x
  · -- the entries: those of the old nodes, and the new one behind them
    have hold : (A ++ [t]).map (Function.update (entryOf q.nodes) r (some (fd, tt)))
        = L.map some := by
      rw [← h.entries]
      exact List.map_congr_left fun x hx => Function.update_of_ne (hne x hx) _ _
    simp only [entryOf_update, Option.bind_some, update_entryOf hn, Option.map_some]
    rw [List.map_append, hold]
    simp
  · intro p hp
    -- a live node is an old one or the new one
    by_cases hpr : p = r
    · simp [hpr]
    · by_cases hpt : p = t
      · simp [hpt]
      · simp only [Function.update_of_ne hpr, Function.update_of_ne hpt] at hp
        exact List.mem_append_left [r] (h.owned p hp)

/-- `insertReq` on a queue that is not full. -/
theorem Represents.insertReq (h : q.Represents A L) (hr : q.MallocAnswer r)
    (hroom : (L.length : Int) ≠ q.maxSize) (fd : Int) (tt : ℕ) :
    ∃ q', q.insertReq r fd tt = some q' ∧ q'.Shape (A ++ [r]) (L ++ [(fd, tt)]) ∧
      q'.curSize = wrapInt (q.curSize + 1) ∧ q'.maxSize = q.maxSize := by
  have hfull : ¬ q.isQfull = true := by
    rw [isQfull, beq_iff_eq, h.curSize_eq]
    exact hroom
  have hnew : (q.createRequest r fd).store r (fun n => { n with insertionTime := some tt })
      = some { q with nodes := Function.update q.nodes r (some ⟨some tt, fd, 0, none⟩) } := by
    rw [store_eq (Function.update_self r _ q.nodes)]
    simp [createRequest]
  rw [ReqList.insertReq, if_neg hfull, hnew, Option.bind_eq_bind, Option.bind_some]
  -- the first node keeps its `previous` link unwritten, every other one gets it
  obtain rfl | ⟨A', t, rfl⟩ := A.eq_nil_or_concat'
  · obtain rfl : L = [] := List.length_eq_zero_iff.mp h.length_eq.symm
    have hempty : q.isQempty = true := h.isQempty_iff.mpr rfl
    have hshape := h.toShape.insert_first hr.1 fd tt (wrapInt (q.curSize + 1))
    exact ⟨_, if_pos hempty, hshape, rfl, rfl⟩
  · have hmem := h.not_mem_of_malloc hr
    have hempty : ¬ q.isQempty = true := by
      rw [h.isQempty_iff, ← List.length_eq_zero_iff, ← h.length_eq]
      simp
    obtain ⟨n, hn⟩ := h.live (a := t) (by simp)
    have htail : q.tail = t := by simp [h.tail_eq]
    have htr : t ≠ r := fun htr => hmem (by simp [htr])
    have hshape := h.toShape.insert_last hr.1 hmem hn fd tt (wrapInt (q.curSize + 1))
    refine ⟨_, (if_neg hempty).trans ?_, hshape, rfl, rfl⟩
    -- the old tail is still there after the new node has been written
    have hold : Function.update q.nodes r (some ⟨some tt, fd, 0, none⟩) t = some n := by
      rw [Function.update_of_ne htr, hn]
    have hthis : Function.update (Function.update q.nodes r (some ⟨some tt, fd, 0, none⟩)) t
        (some { n with next := r }) r = some ⟨some tt, fd, 0, none⟩ := by
      rw [Function.update_of_ne htr.symm, Function.update_self]
    rw [htail, store_eq hold, Option.bind_some, store_eq hthis]
    simp [incSize, Function.update_comm htr]

theorem Shape.remove_only (h : q.Shape [a] L) (size : Int) :
    Shape { q with
      curSize := size, head := 0, tail := 0, nodes := Function.update q.nodes a none } [] [] where
  links := .nil
  tail_eq := rfl
  entries := rfl
  owned := by
    intro p hp
    by_cases hpa : p = a
    · simp [hpa] at hp
    · simp only [Function.update_of_ne hpa] at hp
      exact absurd (List.mem_singleton.mp (h.owned p hp)) hpa

/-- The second node becomes the head, and its back link null. -/
theorem Shape.remove_first (h : q.Shape (a :: b :: A) L) (hn : q.nodes b = some n) (size : Int) :
    Shape { q with
      curSize := size, head := b,
      nodes := Function.update (Function.update q.nodes a none) b
        (some { n with previous := some 0 }) } (b :: A) L.tail := by
  have hne : ∀ x ∈ b :: A, x ≠ a := fun x hx hxa => (List.nodup_cons.mp h.links.nodup).1 (hxa ▸ hx)
  have hnb : ∀ x ∈ A, x ≠ b := fun x hx hxb =>
    (List.nodup_cons.mp h.links.nodup.tail).1 (hxb ▸ hx)
  have hba : b ≠ a := hne b List.mem_cons_self
  refine ⟨?_, ?_, ?_, ?_⟩
  · -- only a back link is written, and it is that of the new head
    refine h.links.drop_first (fun x hx => ?_) fun x hx => ?_
    · simp only [nextOf_update, Option.elim_some, Option.elim_none]
      rw [Function.update_comm hba.symm, update_nextOf hn, Function.update_of_ne (hne x hx)]
    · have hxa : x ≠ a := hne x (List.mem_cons_of_mem b hx)
      simp [Function.update_of_ne (hnb x hx), Function.update_of_ne hxa]
  · simp [h.tail_eq]
  · simp only [entryOf_update, Option.bind_some, Option.bind_none]
    rw [Function.update_comm hba.symm, update_entryOf hn]
    calc (b :: A).map (Function.update (entryOf q.nodes) a none)
        = (b :: A).map (entryOf q.nodes) :=
          List.map_congr_left fun x hx => Function.update_of_ne (hne x hx) _ _
      _ = (L.map some).tail := by rw [← h.entries]; rfl
      _ = L.tail.map some := List.map_tail.symm
  · intro p hp
    by_cases hpb : p = b
    · simp [hpb]
    · by_cases hpa : p = a
      · simp [hpa, Function.update_of_ne hba.symm] at hp
      · simp only [Function.update_of_ne hpa, Function.update_of_ne hpb] at hp
        exact (List.mem_cons.mp (h.owned p hp)).resolve_left hpa

/-- `removeFirstReq`. -/
theorem Represents.removeFirstReq (h : q.Represents A L) (hint : (L.length : Int) < 2 ^ 31) :
    ∃ q' A', q.removeFirstReq = some (L.head?.elim (-1) Prod.fst, q') ∧
      q'.Represents A' L.tail ∧ q'.maxSize = q.maxSize := by
  rw [ReqList.removeFirstReq]
  cases L with
  | nil => exact ⟨q, A, if_pos (h.isQempty_iff.mpr rfl), h, rfl⟩
  | cons e L =>
    have hempty : ¬ q.isQempty = true := by simp [h.isQempty_iff]
    -- the count goes down and stays an `int`
    have hsize : wrapInt (q.curSize - 1) = L.length := by
      rw [h.curSize_eq]
      simp only [List.length_cons] at hint ⊢
      push_cast at hint ⊢
      rw [wrapInt_eq ⟨by omega, by omega⟩]
      omega
    rw [if_neg hempty]
    cases A with
    | nil => simpa using h.length_eq
    | cons a A =>
      obtain ⟨hd, hhd, hdata, -⟩ := node_of_entryOf (h.entryOf_getElem (i := 0) rfl rfl)
      have hhead : q.head = a := h.links.forth.1
      rw [hhead, hhd, Option.bind_eq_bind, Option.bind_some, free_eq hhd]
      cases A with
      | nil =>
        -- the only node
        obtain rfl : L = [] := by simpa using h.length_eq.symm
        have hone : q.curSize = 1 := h.curSize_eq
        have hshape := h.toShape.remove_only (wrapInt (q.curSize - 1))
        refine ⟨_, _, (if_pos hone).trans ?_, ⟨hshape, hsize⟩, rfl⟩
        simp [hdata, decSize]
      | cons b A =>
        -- there is a second node, and it becomes the head
        have hlen := h.length_eq
        have hone : ¬ q.curSize = 1 := by
          rw [h.curSize_eq, ← hlen]
          simp
          omega
        obtain ⟨n, hn⟩ := h.live (a := b) (by simp)
        have hnext : hd.next = b := by
          have hlinks : Linked _ _ q.head ([] ++ a :: b :: A) := h.links
          rw [← nextOf_eq hhd, hlinks.next_eq, List.headD_cons]
        have hba : b ≠ a := fun hba => (List.nodup_cons.mp h.links.nodup).1 (by simp [hba])
        have hnew : Function.update q.nodes a none b = some n := by
          rw [Function.update_of_ne hba, hn]
        have hshape := h.toShape.remove_first hn (wrapInt (q.curSize - 1))
        refine ⟨_, _, (if_neg hone).trans ?_, ⟨hshape, hsize⟩, rfl⟩
        rw [hnext, Option.bind_eq_bind, Option.bind_some, store_eq hnew]
        simp [hdata, decSize]

/-- The loop of `removeReq` stops at the node with the index. -/
theorem walk_eq (h : Chain (nextOf nodes) p (pre ++ a :: post))
    (hlive : ∀ x ∈ pre, ∃ n, nodes x = some n) : walk nodes pre.length p = some a := by
  induction pre generalizing p with
  | nil => exact congrArg some h.1
  | cons b pre ih =>
    obtain ⟨n, hn⟩ := hlive b List.mem_cons_self
    obtain ⟨rfl, -, hrest⟩ := h
    rw [nextOf_eq hn] at hrest
    rw [List.length_cons, walk, hn]
    exact ih hrest fun x hx => hlive x (List.mem_cons_of_mem p hx)

/-- A node taken out from behind another one, whatever the writes were that did it. -/
theorem Shape.unlink (h : q.Shape (pre ++ b :: a :: post) L) {nodes' : ℕ → Option ReqNode}
    (hnext : ∀ x ∈ pre ++ post, nextOf nodes' x = nextOf q.nodes x)
    (hb : nextOf nodes' b = nextOf q.nodes a)
    (hprev : ∀ x ∈ pre ++ [b], prevOf nodes' x = prevOf q.nodes x)
    (hpost : ∀ x ∈ post.head?, prevOf nodes' x = some b)
    (hprev' : ∀ x ∈ post.tail, prevOf nodes' x = prevOf q.nodes x)
    (hentry : ∀ x ∈ pre ++ b :: post, entryOf nodes' x = entryOf q.nodes x)
    (howned : ∀ p, nodes' p ≠ none → p ≠ a ∧ q.nodes p ≠ none)
    {t : ℕ} (htail : t = (pre ++ b :: post).getLastD 0) (size : Int) :
    Shape { q with curSize := size, tail := t, nodes := nodes' }
      (pre ++ b :: post) (L.eraseIdx (pre.length + 1)) where
  links := h.links.unlink hnext hb hprev hpost hprev'
  tail_eq := htail
  entries := by
    have herase : pre ++ b :: post = (pre ++ b :: a :: post).eraseIdx (pre.length + 1) := by
      simp [List.eraseIdx_append_of_length_le]
    calc (pre ++ b :: post).map (entryOf nodes')
        = (pre ++ b :: post).map (entryOf q.nodes) := List.map_congr_left hentry
      _ = ((pre ++ b :: a :: post).map (entryOf q.nodes)).eraseIdx (pre.length + 1) := by
          rw [herase, List.eraseIdx_map]
      _ = (L.eraseIdx (pre.length + 1)).map some := by rw [h.entries, List.eraseIdx_map]
  owned := by
    intro p hp
    obtain ⟨hpa, hlive⟩ := howned p hp
    have hmem := h.owned p hlive
    simp only [List.mem_append, List.mem_cons] at hmem ⊢
    tauto

/-- The writes of `removeReq` at the last node. -/
theorem Shape.unlink_last {m : ReqNode} (h : q.Shape (pre ++ [b, a]) L) (hb : q.nodes b = some m)
    (hnext : nextOf q.nodes a = n.next) (size : Int) :
    Shape { q with
      curSize := size, tail := b,
      nodes := Function.update (Function.update q.nodes b (some { m with next := n.next })) a
        none } (pre ++ [b]) (L.eraseIdx (pre.length + 1)) := by
  have hpre : ∀ x ∈ pre, x ≠ b ∧ x ≠ a := by
    have := h.links.nodup
    grind
  have hba : b ≠ a := by
    have := h.links.nodup
    grind
  have hne : ∀ x ∈ pre ++ [b], x ≠ a := by grind
  -- nothing but the `next` link of `b` is written before `a` is freed
  refine h.unlink ?_ ?_ ?_ ?_ ?_ ?_ ?_ (by simp) size
  · intro x hx
    obtain ⟨hxb, hxa⟩ := hpre x (by simpa using hx)
    simp [Function.update_of_ne hxb, Function.update_of_ne hxa]
  · simp [Function.update_of_ne hba, hnext]
  · intro x hx
    simp only [prevOf_update, Option.bind_some, Option.bind_none]
    rw [update_prevOf hb, Function.update_of_ne (hne x hx)]
  · simp
  · simp
  · intro x hx
    simp only [entryOf_update, Option.bind_some, Option.bind_none]
    rw [update_entryOf hb, Function.update_of_ne (hne x hx)]
  · intro p hp
    by_cases hpa : p = a
    · simp [hpa] at hp
    · refine ⟨hpa, ?_⟩
      by_cases hpb : p = b
      · simp [hpb, hb]
      · simpa [Function.update_of_ne hpa, Function.update_of_ne hpb] using hp

/-- The writes of `removeReq` at a node with another one behind it. -/
theorem Shape.unlink_middle {c : ℕ} {m k : ReqNode} (h : q.Shape (pre ++ b :: a :: c :: post) L)
    (hb : q.nodes b = some m) (hc : q.nodes c = some k) (size : Int) :
    Shape { q with
      curSize := size,
      nodes := Function.update (Function.update (Function.update q.nodes b
        (some { m with next := c })) c (some { k with previous := some b })) a none }
      (pre ++ b :: c :: post) (L.eraseIdx (pre.length + 1)) := by
  have hnodup := h.links.nodup
  have hpre : ∀ x ∈ pre ++ post, x ≠ b ∧ x ≠ a ∧ x ≠ c := by grind
  have hba : b ≠ a := by grind
  have hca : c ≠ a := by grind
  have hbc : b ≠ c := by grind
  refine h.unlink ?_ ?_ ?_ ?_ ?_ ?_ ?_ ?_ size
  · intro x hx
    have hxa : x ≠ a := by grind
    have hxb : x ≠ b := by grind
    -- `c` keeps its `next` link
    simp only [nextOf_update, Option.elim_some, Option.elim_none]
    rw [Function.update_of_ne hxa, Function.update_comm hbc, update_nextOf hc,
      Function.update_of_ne hxb]
  · simp only [nextOf_update, Option.elim_some, Option.elim_none]
    rw [Function.update_of_ne hba, Function.update_of_ne hbc, Function.update_self]
    have hlinks := h.links
    rw [List.append_cons] at hlinks
    rw [hlinks.next_eq, List.headD_cons]
  · intro x hx
    have hxa : x ≠ a := by grind
    have hxc : x ≠ c := by grind
    simp only [prevOf_update, Option.bind_some, Option.bind_none]
    rw [Function.update_of_ne hxa, Function.update_of_ne hxc, update_prevOf hb]
  · intro x hx
    -- `c` leads back to `b` now
    obtain rfl : c = x := by simpa using hx
    simp [Function.update_of_ne hca]
  · intro x hx
    obtain ⟨hxb, hxa, hxc⟩ := hpre x (List.mem_append_right pre hx)
    simp [Function.update_of_ne hxb, Function.update_of_ne hxa, Function.update_of_ne hxc]
  · intro x hx
    have hxa : x ≠ a := by grind
    simp only [entryOf_update, Option.bind_some, Option.bind_none]
    rw [Function.update_of_ne hxa, update_entryOf hb, update_entryOf hc]
  · intro p hp
    by_cases hpa : p = a
    · simp [hpa] at hp
    · -- a node that was not live has not become so
      refine ⟨hpa, fun hnone => ?_⟩
      have hpb : p ≠ b := by grind
      have hpc : p ≠ c := by grind
      simp [Function.update_of_ne hpa, Function.update_of_ne hpb, Function.update_of_ne hpc,
        hnone] at hp
  · simp [h.tail_eq]

theorem Represents.getQsize_ne (h : q.Represents A L) : ¬ q.getQsize = -1 := by
  rw [getQsize, h.curSize_eq]
  omega

/-- `removeReq` outside the bounds. -/
theorem Represents.removeReq_out (h : q.Represents A L) {index : Int}
    (hout : index < 0 ∨ index ≥ L.length) : q.removeReq index = some (-1, q) := by
  rw [ReqList.removeReq]
  by_cases hempty : q.isQempty = true
  · exact if_pos hempty
  · have hindex : index < 0 ∨ index ≥ q.getQsize := by
      rw [getQsize, h.curSize_eq]
      exact hout
    simp only [if_neg hempty, if_neg h.getQsize_ne, if_pos hindex]

/-- The reads of `removeReq` behind the head: the loop arrives at the node, and the link back from
there has been written. What is left are the writes. -/
theorem Represents.removeReq_eq {m : ReqNode} (h : q.Represents (pre ++ b :: a :: post) L)
    (hn : q.nodes a = some n) (hm : q.nodes b = some m) :
    q.removeReq ↑(pre.length + 1)
      = (if n.next ≠ 0 then
          { q with nodes := Function.update q.nodes b (some { m with next := n.next }) }.store
            n.next fun k => { k with previous := some b }
        else
          some { q with nodes := Function.update q.nodes b (some { m with next := n.next }) }).bind
        fun q₁ => ((if post = [] then { q₁ with tail := b } else q₁).free a).bind
          fun q₂ => some (n.data, q₂.decSize) := by
  have hcount : q.curSize = ↑(pre.length + 2 + post.length) := by
    rw [h.curSize_eq, ← h.length_eq]
    simp only [List.length_append, List.length_cons]
    omega
  have hempty : ¬ q.isQempty = true := by
    rw [isQempty, beq_iff_eq, hcount]
    omega
  have hin : ¬((↑(pre.length + 1) : Int) < 0 ∨ (↑(pre.length + 1) : Int) ≥ q.getQsize) := by
    rw [getQsize, hcount]
    omega
  have hpos : ¬ (↑(pre.length + 1) : Int) = 0 := by omega
  -- the test for the last index is a test for an empty rest
  have hlast : (↑(pre.length + 1) : Int) ≥ q.getQsize - 1 ↔ post = [] := by
    rw [getQsize, hcount, ← List.length_eq_zero_iff]
    omega
  have hlinks := h.links
  rw [List.append_cons] at hlinks
  -- every step of the loop goes through a live node
  have hwalk : walk q.nodes (pre.length + 1) q.head = some a := by
    have hlive : ∀ x ∈ pre ++ [b], ∃ n, q.nodes x = some n := fun x hx => h.live (by grind)
    have hw := walk_eq hlinks.forth hlive
    rwa [List.length_append] at hw
  -- the node is not the head, so its back link has been written
  have hprev : n.previous = some b := by
    rw [← prevOf_eq hn]
    exact h.links.prev_eq
  -- the `NULL` test of the source can only catch the head, which `index == 0` has caught before
  have hb0 : ¬ b = 0 := h.ne_zero (by simp)
  rw [ReqList.removeReq, if_neg hempty]
  simp only [if_neg h.getQsize_ne, if_neg hin, if_neg hpos, Int.toNat_natCast, hwalk,
    Option.bind_eq_bind, Option.bind_some, hn, hprev, if_neg hb0, store_eq hm, hlast]
  split <;> rfl

/-- The size `removeReq` leaves behind. -/
theorem Represents.wrapInt_eraseIdx (h : q.Represents A L) (hint : (L.length : Int) < 2 ^ 31)
    {i : ℕ} (hi : i < L.length) : wrapInt (q.curSize - 1) = (L.eraseIdx i).length := by
  rw [h.curSize_eq, wrapInt_eq ⟨by omega, by omega⟩, List.length_eraseIdx_of_lt hi]
  omega

/-- `removeReq` at the last of several nodes. -/
theorem Represents.removeReq_last (h : q.Represents (pre ++ [b, a]) L)
    (hint : (L.length : Int) < 2 ^ 31) (hn : q.nodes a = some n) :
    ∃ q' A', q.removeReq ↑(pre.length + 1) = some (n.data, q') ∧
      q'.Represents A' (L.eraseIdx (pre.length + 1)) ∧ q'.maxSize = q.maxSize := by
  obtain ⟨m, hm⟩ := h.live (a := b) (by simp)
  have hlen : pre.length + 1 < L.length := by simp [← h.length_eq]
  have hab : a ≠ b := by
    have := h.links.nodup
    grind
  have hlinks := h.links
  rw [List.append_cons] at hlinks
  -- there is nothing behind the node: no back link is written, and the tail moves
  have hnull : ¬ n.next ≠ 0 := by
    rw [← nextOf_eq hn, hlinks.next_eq]
    simp
  have ha : Function.update q.nodes b (some { m with next := n.next }) a = some n := by
    rw [Function.update_of_ne hab, hn]
  have hshape := h.toShape.unlink_last hm (nextOf_eq hn) (wrapInt (q.curSize - 1))
  refine ⟨_, _, ?_, ⟨hshape, h.wrapInt_eraseIdx hint hlen⟩, rfl⟩
  rw [h.removeReq_eq hn hm, if_neg hnull, Option.bind_some, if_pos rfl, free_eq ha,
    Option.bind_some]
  rfl

/-- `removeReq` at a node with others on both sides. -/
theorem Represents.removeReq_middle {c : ℕ} (h : q.Represents (pre ++ b :: a :: c :: post) L)
    (hint : (L.length : Int) < 2 ^ 31) (hn : q.nodes a = some n) :
    ∃ q' A', q.removeReq ↑(pre.length + 1) = some (n.data, q') ∧
      q'.Represents A' (L.eraseIdx (pre.length + 1)) ∧ q'.maxSize = q.maxSize := by
  obtain ⟨m, hm⟩ := h.live (a := b) (by simp)
  obtain ⟨k, hk⟩ := h.live (a := c) (by simp)
  have hlen : pre.length + 1 < L.length := by simp [← h.length_eq]
  have hnodup := h.links.nodup
  have hab : a ≠ b := by grind
  have hcb : c ≠ b := by grind
  have hac : a ≠ c := by grind
  have hlinks := h.links
  rw [List.append_cons] at hlinks
  have hnext : n.next = c := by
    rw [← nextOf_eq hn, hlinks.next_eq, List.headD_cons]
  have hc0 : c ≠ 0 := h.ne_zero (by simp)
  -- the three nodes are different, so each write finds the node as it was
  have hc : Function.update q.nodes b (some { m with next := c }) c = some k := by
    rw [Function.update_of_ne hcb, hk]
  have ha : Function.update (Function.update q.nodes b (some { m with next := c })) c
      (some { k with previous := some b }) a = some n := by
    rw [Function.update_of_ne hac, Function.update_of_ne hab, hn]
  have hshape := h.toShape.unlink_middle hm hk (wrapInt (q.curSize - 1))
  refine ⟨_, _, ?_, ⟨hshape, h.wrapInt_eraseIdx hint hlen⟩, rfl⟩
  rw [h.removeReq_eq hn hm, hnext, if_pos hc0, store_eq hc, Option.bind_some,
    if_neg (List.cons_ne_nil c post), free_eq ha, Option.bind_some]
  rfl

/-- The node with an index, and the one before it. -/
theorem exists_split_at {i : ℕ} (hi : i + 1 < A.length) :
    ∃ pre b a post, A = pre ++ b :: a :: post ∧ pre.length = i := by
  have hi' : i < A.length := by omega
  refine ⟨A.take i, A[i], A[i + 1], A.drop (i + 2), ?_, List.length_take_of_le hi'.le⟩
  rw [← List.drop_eq_getElem_cons hi, ← List.drop_eq_getElem_cons hi', List.take_append_drop]

/-- `removeReq` inside the bounds. -/
theorem Represents.removeReq (h : q.Represents A L) (hint : (L.length : Int) < 2 ^ 31) {i : ℕ}
    {e : Int × ℕ} (he : L[i]? = some e) :
    ∃ q' A', q.removeReq i = some (e.1, q') ∧ q'.Represents A' (L.eraseIdx i) ∧
      q'.maxSize = q.maxSize := by
  have hi : i < L.length := (List.getElem?_eq_some_iff.mp he).1
  cases i with
  | zero =>
    have hne : L ≠ [] := List.ne_nil_of_length_pos hi
    -- the first index is left to `removeFirstReq`
    have hin : ¬((0 : Int) < 0 ∨ (0 : Int) ≥ q.getQsize) := by
      rw [getQsize, h.curSize_eq]
      omega
    obtain ⟨q', A', hcall, hrep, hmax⟩ := h.removeFirstReq hint
    refine ⟨q', A', ?_, by rwa [List.eraseIdx_zero], hmax⟩
    rw [Nat.cast_zero, ReqList.removeReq, if_neg (mt h.isQempty_iff.mp hne)]
    simp only [if_neg h.getQsize_ne, if_neg hin, if_pos]
    rw [hcall, List.head?_eq_getElem?, he, Option.elim_some]
  | succ i =>
    obtain ⟨pre, b, a, post, rfl, rfl⟩ := exists_split_at (h.length_eq ▸ hi)
    have ha : (pre ++ b :: a :: post)[pre.length + 1]? = some a := by simp
    obtain ⟨n, hn, hdata, -⟩ := node_of_entryOf (h.entryOf_getElem ha he)
    rw [← hdata]
    cases post with
    | nil => exact h.removeReq_last hint hn
    | cons c post => exact h.removeReq_middle hint hn

/-- The loop of the two searches stops at the first entry with the descriptor. -/
theorem search_eq {fd : Int} {i : ℕ} (h : Chain (nextOf nodes) p A)
    (hentries : A.map (entryOf nodes) = L.map some) :
    search nodes fd L.length i p
      = some ((L.findIdx? fun e => fd == e.1).map fun j => (i + j, A.getD j 0)) := by
  induction L generalizing A i p with
  | nil => rfl
  | cons e L ih =>
    cases A with
    | nil => simp at hentries
    | cons a A =>
      obtain ⟨rfl, -, hrest⟩ := h
      simp only [List.map_cons, List.cons.injEq] at hentries
      obtain ⟨n, hn, hdata, -⟩ := node_of_entryOf hentries.1
      rw [nextOf_eq hn] at hrest
      rw [List.length_cons, search, hn, Option.bind_eq_bind, Option.bind_some, hdata,
        List.findIdx?_cons]
      -- found here, or further on with the index counted from the next node
      by_cases hfd : fd = e.1
      · simp [hfd]
      · have hbeq : ¬ (fd == e.1) = true := by simpa using hfd
        rw [if_neg hfd, if_neg hbeq, ih hrest hentries.2, Option.map_map]
        congr 2
        funext j
        simp only [Function.comp_apply, List.getD_cons_succ]
        congr 1
        omega

/-- What the searches start with: a queue that is not empty has a `cur_size` the loops can count
down from. -/
theorem Represents.search (h : q.Represents A L) (fd : Int) :
    ReqList.search q.nodes fd q.getQsize.toNat 0 q.head
      = some ((L.findIdx? fun e => fd == e.1).map fun j => (j, A.getD j 0)) := by
  rw [getQsize, h.curSize_eq, Int.toNat_natCast, search_eq h.links.forth h.entries]
  simp

/-- `findFileId`. -/
theorem Represents.findFileId (h : q.Represents A L) (fd : Int) :
    q.findFileId fd
      = some ((L.findIdx? fun e => fd == e.1).elim (-1) fun i => (i : Int)) := by
  rw [ReqList.findFileId]
  cases L with
  | nil => exact if_pos (h.isQempty_iff.mpr rfl)
  | cons e L =>
    have hempty : ¬ q.isQempty = true := by simp [h.isQempty_iff]
    have hss : ¬(q.getQsize = -1 ∨ q.getQsize = 0) := by
      rw [getQsize, h.curSize_eq, List.length_cons]
      omega
    simp only [if_neg hempty, if_neg hss, h.search, Option.bind_eq_bind, Option.bind_some,
      Option.elim_map]
    rfl

/-- `getFirstReqTime`. -/
theorem Represents.getFirstReqTime (h : q.Represents A L) :
    q.getFirstReqTime = some (L.head?.elim 0 Prod.snd) := by
  rw [ReqList.getFirstReqTime]
  cases L with
  | nil => exact if_pos (h.isQempty_iff.mpr rfl)
  | cons e L =>
    have hempty : ¬ q.isQempty = true := by simp [h.isQempty_iff]
    cases A with
    | nil => simpa using h.length_eq
    | cons a A =>
      obtain ⟨n, hn, -, htime⟩ := node_of_entryOf (h.entryOf_getElem (i := 0) rfl rfl)
      have hhead : q.head = a := h.links.forth.1
      have ha : ¬ a = 0 := h.ne_zero List.mem_cons_self
      rw [if_neg hempty, hhead, if_neg ha, hn]
      exact htime

/-- `getReqTime`. -/
theorem Represents.getReqTime (h : q.Represents A L) (fd : Int) :
    q.getReqTime fd = some ((L.find? fun e => fd == e.1).elim 0 Prod.snd) := by
  rw [ReqList.getReqTime]
  cases hL : L with
  | nil => exact if_pos (h.isQempty_iff.mpr hL)
  | cons e L' =>
    have hempty : ¬ q.isQempty = true := by simp [h.isQempty_iff, hL]
    rw [← hL, List.find?_eq_bind_findIdx?_getElem?]
    simp only [if_neg hempty, if_neg h.getQsize_ne, h.search, Option.bind_eq_bind,
      Option.bind_some, Option.elim_map]
    cases hfind : L.findIdx? fun e => fd == e.1 with
    | none => rfl
    | some j =>
      -- the node at the index found holds the entry at that index
      obtain ⟨hj, -, -⟩ := List.findIdx?_eq_some_iff_getElem.mp hfind
      have hA : A[j]? = some (A.getD j 0) := by
        have hjA : j < A.length := h.length_eq ▸ hj
        simp [hjA]
      have hentry := h.entryOf_getElem hA (List.getElem?_eq_getElem hj)
      obtain ⟨n, hn, -, htime⟩ := node_of_entryOf hentry
      rw [Option.elim_some, Function.comp_apply, hn, Option.bind_some, htime, Option.bind_some,
        List.getElem?_eq_getElem hj, Option.elim_some]

end ReqList

end Server
end OsHomework
