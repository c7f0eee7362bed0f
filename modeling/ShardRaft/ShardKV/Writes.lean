import ShardRaft.ShardKV.Contents
import ShardRaft.Lib.Lists

/-!
# No acknowledged write is lost

An operation that a group answers with `OK` was new there or known.  If it was known,
some group has applied it before: an entry of `ClientLastRequest` stands for a new
operation of that client, and a clerk makes its calls one after another, so all its
earlier calls have been answered (`Acked`).  What a `Get` reads is what the new
operations have written so far (`Reads`), because the group that serves the shard holds
just that.  `writes_kept` puts the two together for the runs that keep the data.

Without that condition a second answer of a donor that has moved on in the meantime
replaces a store that has been written to (`write_lost`).
-/

namespace ShardRaft.ShardKV

open ShardRaft.Lib
open ShardRaft.Ctrler (Config NShards NShards_pos)

variable {cs : Configs} {w w' : World} {e : Event}

/-! ### Requests -/

/-- A new operation of this client with this index has been applied. -/
def World.Recorded (w : World) (c L : Int) : Prop :=
  ∃ r ∈ w.history, r.isNew = true ∧ r.request.clientId = c ∧ r.request.requestIndex = L

/-- Every good reply is about an operation that was new once. -/
structure Acked (w : World) : Prop where
  table : ∀ g, ∀ st ∈ w.past g, ∀ c L, st.clientLastRequest c = some L → w.Recorded c L
  sent : ∀ a ∈ w.answered, ∀ c L, a.reply.clientLastRequest c = some L → w.Recorded c L
  applied : ∀ r ∈ w.history, r.request ∈ w.issued
  index_lt : ∀ req ∈ w.issued, req.requestIndex < (w.clerks req.clientId).requestIndex
  unique : ∀ req ∈ w.issued, ∀ req' ∈ w.issued, req.clientId = req'.clientId →
    req.requestIndex = req'.requestIndex → req = req'
  waiting : ∀ c req, (w.clerks c).waiting = some req →
    req.clientId = c ∧ req.requestIndex + 1 = (w.clerks c).requestIndex
  returned : ∀ req ∈ w.issued, (w.clerks req.clientId).waiting ≠ some req →
    ∃ r ∈ w.history, r.request = req ∧ r.reply.good = true
  good : ∀ (j : Nat) (r : Applied), w.history[j]? = some r → r.reply.good = true →
    ∃ i ≤ j, ∃ r' : Applied, w.history[i]? = some r' ∧ r'.isNew = true ∧ r'.request = r.request

theorem State.mergeLastRequest_eq_some {mine theirs : Int → Option Int} {c L : Int}
    (h : mergeLastRequest mine theirs c = some L) : mine c = some L ∨ theirs c = some L := by
  unfold mergeLastRequest at h
  split at h
  · exact .inl h
  · rename_i l hl
    split at h
    · exact .inr (hl.trans h)
    · exact .inl h

namespace Acked

theorem init : Acked World.init where
  table g st hst c L h := by
    rw [List.mem_singleton.mp hst] at h
    exact absurd h (by simp [State.makeState])
  sent a ha := absurd ha List.not_mem_nil
  applied r hr := absurd hr List.not_mem_nil
  index_lt req hr := absurd hr List.not_mem_nil
  unique req hr := absurd hr List.not_mem_nil
  waiting c req h := absurd h (by simp [World.init])
  returned req hr := absurd hr List.not_mem_nil
  good j r h := absurd h (by simp [World.init])

theorem setState (h : Acked w) {g : Gid} {st : State}
    (hst : ∀ c L, st.clientLastRequest c = some L → w.Recorded c L) :
    Acked (w.setState g st) := by
  refine ⟨?_, h.sent, h.applied, h.index_lt, h.unique, h.waiting, h.returned, h.good⟩
  intro g' st' hst' c L hl
  by_cases hg : g' = g
  · subst hg
    simp only [World.setState, Function.update_self] at hst'
    rcases List.mem_append.mp hst' with hm | hm
    · exact h.table g' st' hm c L hl
    · rw [List.mem_singleton.mp hm] at hl
      exact hst c L hl
  · simp only [World.setState, Function.update_of_ne hg] at hst'
    exact h.table g' st' hst' c L hl

theorem new_of_duplicate (h : Acked w) (ho : InOrder cs w) {g : Gid} {req : Request}
    (hreq : req ∈ w.issued) (hd : (w.state g).isDuplicateOp (createOp 0 req) = true) :
    ∃ (i : Nat) (r' : Applied), w.history[i]? = some r' ∧ r'.isNew = true ∧ r'.request = req := by
  have hcl : (createOp 0 req).clientId = req.clientId := rfl
  have hix : (createOp 0 req).requestIndex = req.requestIndex := rfl
  unfold State.isDuplicateOp at hd
  split at hd
  · rename_i L hL
    have hle := of_decide_eq_true hd
    rw [hix] at hle
    obtain ⟨r, hr, hnew, hc, hi⟩ := h.table g _ (ho.state_mem g) _ L hL
    rw [hcl] at hc
    have hiss := h.applied r hr
    rcases eq_or_lt_of_le hle with heq | hlt
    · obtain ⟨i, hi'⟩ := List.mem_iff_getElem?.mp hr
      exact ⟨i, r, hi', hnew, h.unique _ hiss _ hreq hc (hi.trans heq.symm)⟩
    · -- the client has gone on to a later call, so this one has returned
      have hnot : (w.clerks req.clientId).waiting ≠ some req := by
        intro hw
        have h1 := (h.waiting _ _ hw).2
        have h2 := h.index_lt _ hiss
        rw [hc] at h2
        omega
      obtain ⟨r', hr', hq, hg⟩ := h.returned req hreq hnot
      obtain ⟨j, hj⟩ := List.mem_iff_getElem?.mp hr'
      obtain ⟨i, -, r'', hi', hnew', hq'⟩ := h.good j r' hj hg
      exact ⟨i, r'', hi', hnew', hq'.trans hq⟩
  · exact absurd hd (by simp)

theorem apply (h : Acked w) (ho : InOrder cs w) {g : Gid} {req : Request} {st : State}
    {msg : KVReplyMsg} (hreq : req ∈ w.issued)
    (ha : (w.state g).applyClientOp g (createOp 0 req) = some (st, msg)) :
    Acked { w.setState g st with
      history := w.history ++ [⟨g, req, (w.state g).serves g (key2shard req.call.key) &&
        !(w.state g).isDuplicateOp (createOp 0 req), msg⟩] } := by
  have hkey : (createOp 0 req).key = req.call.key := rfl
  generalize hr₀ : (⟨g, req, (w.state g).serves g (key2shard req.call.key) &&
    !(w.state g).isDuplicateOp (createOp 0 req), msg⟩ : Applied) = r₀
  have hreq₀ : r₀.request = req := by rw [← hr₀]
  have hnew₀ : r₀.isNew = ((w.state g).serves g (key2shard req.call.key) &&
    !(w.state g).isDuplicateOp (createOp 0 req)) := by rw [← hr₀]
  have hrep₀ : r₀.reply = msg := by rw [← hr₀]
  have hmono : ∀ c L, w.Recorded c L →
      ({ w.setState g st with history := w.history ++ [r₀] } : World).Recorded c L := by
    rintro c L ⟨r, hr, hrest⟩
    exact ⟨r, List.mem_append_left _ hr, hrest⟩
  have hlast : r₀ ∈ w.history ++ [r₀] := List.mem_append_right _ (List.mem_singleton.mpr rfl)
  refine ⟨?_, ?_, ?_, h.index_lt, h.unique, h.waiting, ?_, ?_⟩
  · intro g' st' hst' c L hl
    by_cases hold : st' ∈ w.past g'
    · exact hmono c L (h.table g' st' hold c L hl)
    · -- the new state: its table has at most the entry of this operation in addition
      have hg : g' = g := by
        by_contra hg
        simp only [World.setState, Function.update_of_ne hg] at hst'
        exact hold hst'
      subst hg
      simp only [World.setState, Function.update_self] at hst'
      obtain rfl := List.mem_singleton.mp ((List.mem_append.mp hst').resolve_left hold)
      cases hnew : (w.state g').serves g' (key2shard req.call.key) &&
          !(w.state g').isDuplicateOp (createOp 0 req) with
      | false =>
        have heq : st' = w.state g' := State.applyClientOp_of_not (by rw [hkey]; exact hnew) ha
        exact absurd (heq ▸ ho.state_mem g') hold
      | true =>
        obtain ⟨hs, hdup⟩ := (Bool.and_eq_true _ _).mp hnew
        rw [State.applyClientOp_of_new (by rw [hkey]; exact hs) (by simpa using hdup)] at ha
        rw [(State.applyNew_frame ha).2.2.2] at hl
        by_cases hc : c = req.clientId
        · subst hc
          rw [show (createOp 0 req).clientId = req.clientId from rfl, Function.update_self] at hl
          exact ⟨r₀, hlast, by rw [hnew₀, hnew], by rw [hreq₀],
            by rw [hreq₀]; exact Option.some.inj hl⟩
        · rw [show (createOp 0 req).clientId = req.clientId from rfl,
            Function.update_of_ne hc] at hl
          exact hmono c L (h.table g' _ (ho.state_mem g') c L hl)
  · intro a ha' c L hl
    exact hmono c L (h.sent a ha' c L hl)
  · intro r hr
    rcases List.mem_append.mp hr with hr | hr
    · exact h.applied r hr
    · rw [List.mem_singleton.mp hr, hreq₀]
      exact hreq
  · intro req' hreq' hw
    obtain ⟨r, hr, hrest⟩ := h.returned req' hreq' hw
    exact ⟨r, List.mem_append_left _ hr, hrest⟩
  · intro j r hj hg
    have hext : ∀ {i : Nat} {r' : Applied}, w.history[i]? = some r' → (w.history ++ [r₀])[i]? = some r' :=
      fun hi => (List.getElem?_append_left (List.getElem?_eq_some_iff.mp hi).1).trans hi
    rcases getElem?_concat.mp hj with hj | ⟨rfl, rfl⟩
    · obtain ⟨i, hi, r', hr', hrest⟩ := h.good j r hj hg
      exact ⟨i, hi, r', hext hr', hrest⟩
    · cases hnew : r₀.isNew with
      | true => exact ⟨_, le_rfl, r₀, hj, hnew, rfl⟩
      | false =>
        rw [hrep₀] at hg
        have hs := State.serves_of_good ha hg
        rw [hkey] at hs
        rw [hnew₀, hs, Bool.true_and, Bool.not_eq_false'] at hnew
        obtain ⟨i, r', hi, hnew', hq⟩ := h.new_of_duplicate ho hreq hnew
        exact ⟨i, (List.getElem?_eq_some_iff.mp hi).1.le, r', hext hi, hnew',
          by rw [hq, hreq₀]⟩

theorem call (h : Acked w) {c : Int} (call : Call) (hw : (w.clerks c).waiting = none) :
    Acked { w with
      clerks := Function.update w.clerks c ⟨(w.clerks c).requestIndex + 1,
        some ⟨c, (w.clerks c).requestIndex, call⟩⟩
      issued := w.issued ++ [⟨c, (w.clerks c).requestIndex, call⟩] } := by
  have hlt : ∀ req ∈ w.issued, req.clientId = c →
      req.requestIndex < (w.clerks c).requestIndex := by
    intro req hreq hc
    have hlt := h.index_lt req hreq
    rwa [hc] at hlt
  refine ⟨h.table, h.sent, fun r hr => List.mem_append_left _ (h.applied r hr), ?_, ?_, ?_, ?_,
    h.good⟩
  · intro req hreq
    rcases List.mem_append.mp hreq with hreq | hreq
    · by_cases hc : req.clientId = c
      · simp only [hc, Function.update_self]
        have hlt' := hlt req hreq hc
        omega
      · simp only [Function.update_of_ne hc]
        exact h.index_lt req hreq
    · simp only [List.mem_singleton.mp hreq, Function.update_self]
      omega
  · intro req hreq req' hreq' hc hi
    rcases List.mem_append.mp hreq with hm | hm <;> rcases List.mem_append.mp hreq' with hm' | hm'
    · exact h.unique req hm req' hm' hc hi
    · rw [List.mem_singleton.mp hm'] at hc hi
      exact absurd hi (ne_of_lt (hlt req hm hc))
    · rw [List.mem_singleton.mp hm] at hc hi
      exact absurd hi (ne_of_gt (hlt req' hm' hc.symm))
    · rw [List.mem_singleton.mp hm, List.mem_singleton.mp hm']
  · intro c' req hreq
    by_cases hc : c' = c
    · subst hc
      simp only [Function.update_self] at hreq ⊢
      rw [← Option.some.inj hreq]
      exact ⟨rfl, rfl⟩
    · simp only [Function.update_of_ne hc] at hreq ⊢
      exact h.waiting c' req hreq
  · intro req hreq hnot
    rcases List.mem_append.mp hreq with hreq | hreq
    · refine h.returned req hreq ?_
      intro heq
      by_cases hc : req.clientId = c
      · rw [hc, hw] at heq
        exact absurd heq (by simp)
      · simp only [Function.update_of_ne hc] at hnot
        exact hnot heq
    · simp only [List.mem_singleton.mp hreq, Function.update_self] at hnot
      exact absurd rfl hnot

theorem returns (h : Acked w) {c : Int} {req : Request} {r : Applied}
    (hw : (w.clerks c).waiting = some req) (hr : r ∈ w.history) (hq : r.request = req)
    (hg : r.reply.good = true) : Acked { w with
      clerks := Function.update w.clerks c { w.clerks c with waiting := none } } := by
  refine ⟨h.table, h.sent, h.applied, ?_, h.unique, ?_, ?_, h.good⟩
  · intro req' hreq'
    by_cases hc : req'.clientId = c
    · have hlt := h.index_lt req' hreq'
      rw [hc] at hlt ⊢
      simp only [Function.update_self]
      exact hlt
    · simp only [Function.update_of_ne hc]
      exact h.index_lt req' hreq'
  · intro c' req' hreq'
    by_cases hc : c' = c
    · subst hc
      simp only [Function.update_self] at hreq'
      exact absurd hreq' (by simp)
    · simp only [Function.update_of_ne hc] at hreq' ⊢
      exact h.waiting c' req' hreq'
  · intro req' hreq' hnot
    by_cases hc : req'.clientId = c
    · by_cases heq : req' = req
      · exact ⟨r, hr, hq.trans heq.symm, hg⟩
      · refine h.returned req' hreq' ?_
        rw [hc, hw]
        intro hsome
        exact heq (Option.some.inj hsome).symm
    · simp only [Function.update_of_ne hc] at hnot
      exact h.returned req' hreq' hnot

/-- **A step keeps every good reply backed by an operation that was new.** -/
theorem move (h : Acked w) (ho : InOrder cs w) (hm : World.Move cs w e w') : Acked w' := by
  cases hm with
  | check hst hup =>
    exact ⟨h.table, h.sent, h.applied, h.index_lt, h.unique, h.waiting, h.returned, h.good⟩
  | query ht hst hp hn =>
    exact ⟨h.table, h.sent, h.applied, h.index_lt, h.unique, h.waiting, h.returned, h.good⟩
  | propose ht hc hst hp hn =>
    exact ⟨h.table, h.sent, h.applied, h.index_lt, h.unique, h.waiting, h.returned, h.good⟩
  | install hc =>
    refine h.setState ?_
    rw [State.install_clientLastRequest]
    exact h.table _ _ (ho.state_mem _)
  | request hst hst' hp hl ha =>
    exact ⟨h.table, h.sent, h.applied, h.index_lt, h.unique, h.waiting, h.returned, h.good⟩
  | answer hq hst hr =>
    refine ⟨h.table, ?_, h.applied, h.index_lt, h.unique, h.waiting, h.returned, h.good⟩
    intro a ha c L hl
    rcases List.mem_append.mp ha with ha | ha
    · exact h.sent a ha c L hl
    · rw [List.mem_singleton.mp ha, (State.answer_eq hr).2] at hl
      exact h.table _ _ (List.mem_of_getElem? hst) c L hl
  | acquire ha =>
    refine h.setState ?_
    intro c L hl
    rw [State.acquire_clientLastRequest] at hl
    rcases State.mergeLastRequest_eq_some hl with hl | hl
    · exact h.table _ _ (ho.state_mem _) c L hl
    · exact h.sent _ (List.mem_of_getElem? ha) c L hl
  | call hc => exact h.call _ hc
  | apply hreq ha => exact h.apply ho (List.mem_of_getElem? hreq) ha
  | returns hc hr hq hg => exact h.returns hc hr hq hg

end Acked

/-! ### Reads -/

/-- Every `Get` has read what had been written. -/
def Reads (w : World) : Prop :=
  ∀ (j : Nat) (r : Applied) (key : String), w.history[j]? = some r →
    r.request.call = .get key → r.reply.good = true →
      r.reply = Call.answer (contents (w.history.take j) key)

theorem State.reply_of_good {st st' : State} {g : Int} {req : Request} {key : String}
    {msg : KVReplyMsg} (hcall : req.call = .get key)
    (ha : st.applyClientOp g (createOp 0 req) = some (st', msg)) (hg : msg.good = true) :
    msg = st.getValue (createOp 0 req) := by
  have hs := State.serves_of_good ha hg
  have htype : (createOp 0 req).type = .get := by rw [createOp, hcall]
  obtain ⟨hown, hup⟩ := State.serves_iff.mp hs
  simp only [State.applyClientOp, hown, hup, htype, ne_eq, not_true, if_false, Bool.not_true,
    Bool.false_eq_true, if_true] at ha
  split at ha
  · exact (Prod.mk.inj (Option.some.inj ha)).2.symm
  · simp only [State.applyNew, htype] at ha
    exact (Prod.mk.inj (Option.some.inj ha)).2.symm

theorem reads_move (h : Kept cs w) (hr : Reads w) (hm : World.Move cs w e w') : Reads w' := by
  cases hm with
  | check hst hup => exact hr
  | query ht hst hp hn => exact hr
  | propose ht hc hst hp hn => exact hr
  | install hc => exact hr
  | request hst hst' hp hl ha => exact hr
  | answer hq hst hr' => exact hr
  | acquire ha => exact hr
  | call hc => exact hr
  | @apply g k req st msg hreq ha =>
    intro j r key hj hcall hg
    rcases getElem?_concat.mp hj with hj | ⟨rfl, rfl⟩
    · rw [List.take_append_of_le_length (List.getElem?_eq_some_iff.mp hj).1.le]
      exact hr j r key hj hcall hg
    · rw [List.take_append_of_le_length le_rfl, List.take_length]
      have hs := State.serves_of_good ha hg
      rw [show (createOp 0 req).key = key by rw [createOp, hcall, Call.key]] at hs
      have hholds := h.data.holds_of_serves h.chain h.inOrder hs
      rw [← State.getValue_of_holds hcall hholds]
      exact State.reply_of_good hcall ha hg
  | returns hc hr' hq hg => exact hr

/-- **Good replies and reads in a run that keeps the data.** -/
theorem acked_run {tr : List World} (h : Run cs World.KeepsData tr) :
    ∀ w ∈ tr, (Kept cs w ∧ Acked w) ∧ Reads w :=
  Trace.invariant ⟨⟨Kept.init, Acked.init⟩, fun j r key hj => absurd hj (by simp [World.init])⟩
    (fun _ _ _ hw hok hs =>
      have hm := World.move_of_step hs
      ⟨⟨hw.1.1.move hok hm, hw.1.2.move hw.1.1.inOrder hm⟩, reads_move hw.1.1 hw.2 hm⟩) tr h

/-! ### Acknowledged writes are kept -/

/-- Without a `Put`, a value only grows. -/
theorem contents_grows {key : String} : ∀ (l : List Applied) (m : String → Option String)
    (v : String), m key = some v →
    (∀ r ∈ l, r.isNew = true → ∀ v', r.request.call ≠ .put key v') →
      ∃ post, l.foldl (fun m r => if r.isNew then r.request.call.write m else m) m key =
        some (v ++ post) := by
  intro l
  induction l with
  | nil =>
    intro m v hm _
    exact ⟨"", by simp [hm]⟩
  | cons r l ih =>
    intro m v hm hput
    rw [List.foldl_cons]
    have hrest := fun r' hr' => hput r' (List.mem_cons_of_mem _ hr')
    by_cases hnew : r.isNew = true
    · rw [if_pos hnew]
      by_cases hk : key = r.request.call.key
      · cases hcall : r.request.call with
        | get k => exact ih m v hm hrest
        | put k v' =>
          rw [hcall] at hk
          exact absurd (by rw [hcall, hk]; rfl) (hput r (List.mem_cons_self ..) hnew v')
        | append k v' =>
          rw [hcall] at hk
          obtain rfl : key = k := hk
          obtain ⟨post, hpost⟩ := ih (Call.write m (.append key v')) (v ++ v')
            (by simp [Call.write, hm]) hrest
          exact ⟨v' ++ post, by rw [hpost, String.append_assoc]⟩
      · exact ih _ v (by rw [Call.write_of_ne hk, hm]) hrest
    · rw [if_neg hnew]
      exact ih m v hm hrest

/-- Whenever a `Put` or `Append` has been applied with reply `OK`, at place `i`, and a
`Get` on the key with a good reply at a later place `j`: the write has taken effect at some
place `i'` up to `i`, and if no `Put` on the key has taken effect in between, the `Get` has
returned what the key held right after the write, possibly with more appended. -/
def World.WritesKept (w : World) : Prop :=
  ∀ (i j : Nat) (r q : Applied) (key value : String), i < j → w.history[i]? = some r →
    w.history[j]? = some q →
    r.request.call = .put key value ∨ r.request.call = .append key value →
    r.reply.error = .ok → q.request.call = .get key → q.reply.good = true →
    ∃ i' ≤ i, ∃ r' : Applied, w.history[i']? = some r' ∧ r'.isNew = true ∧
      r'.request = r.request ∧
      ((∃ (l : Nat) (p : Applied) (v : String), i' < l ∧ l < j ∧ w.history[l]? = some p ∧
          p.isNew = true ∧ p.request.call = .put key v) ∨
        ∃ post, q.reply = ⟨.ok,
          (r.request.call.write (contents (w.history.take i')) key).getD "" ++ post⟩)

theorem write_self {m : String → Option String} {call : Call} {key value : String}
    (h : call = .put key value ∨ call = .append key value) :
    ∃ v, call.write m key = some v := by
  rcases h with rfl | rfl
  · exact ⟨value, Function.update_self ..⟩
  · exact ⟨_, Function.update_self ..⟩

/-- **In a run that keeps the data no acknowledged write is lost.** -/
theorem writes_kept (cs : Configs) (w : World) (past : List World)
    (h : Run cs World.KeepsData (w :: past)) : w.WritesKept := by
  obtain ⟨⟨-, hacked⟩, hreads⟩ := acked_run h w (List.mem_cons_self ..)
  intro i j r q key value hij hr hq hwrite hok hget hgood
  have hrgood : r.reply.good = true := by
    rw [KVReplyMsg.good, hok]
    rfl
  obtain ⟨i', hi', r', hr', hnew, hreq⟩ := hacked.good i r hr hrgood
  refine ⟨i', hi', r', hr', hnew, hreq, ?_⟩
  by_cases hput : ∃ (l : Nat) (p : Applied) (v : String), i' < l ∧ l < j ∧
      w.history[l]? = some p ∧ p.isNew = true ∧ p.request.call = .put key v
  · exact .inl hput
  · right
    rw [hreads j q key hq hget hgood]
    obtain ⟨v, hv⟩ := write_self (m := contents (w.history.take i')) hwrite
    rw [hv, Option.getD_some]
    -- the operations from the write to the read
    obtain ⟨k, rfl⟩ : ∃ k, j = (i' + 1) + k := ⟨j - (i' + 1), by omega⟩
    have hfirst : contents (w.history.take (i' + 1)) key = some v := by
      rw [List.take_add_one, hr', Option.toList_some, contents_concat, if_pos hnew, hreq]
      exact hv
    obtain ⟨post, hpost⟩ := contents_grows ((w.history.drop (i' + 1)).take k) _ v hfirst (by
      intro p hp hpnew v' hcall
      obtain ⟨l, hl⟩ := List.mem_iff_getElem?.mp hp
      rw [List.getElem?_take] at hl
      split at hl
      · rename_i hlk
        rw [List.getElem?_drop] at hl
        exact hput ⟨i' + 1 + l, p, v', by omega, by omega, hl, hpnew, hcall⟩
      · exact absurd hl (by simp))
    have hcontents : contents (w.history.take (i' + 1 + k)) key = some (v ++ post) := by
      rw [List.take_add, contents, List.foldl_append]
      exact hpost
    exact ⟨post, by rw [hcontents, Call.answer]⟩

/-- Configurations that move one shard about; nobody has the others. -/
def oneShard (owners : List Int) : Configs where
  config n := ⟨n, fun sid => if sid.1 = 0 then (owners[n]?).getD 0 else 0,
    Ctrler.Groups.ofList [(1, ["a"]), (2, ["b"])]⟩
  num_eq _ := rfl

/-- A key is written in group 1, goes to group 2 and is read there. -/
def sampleMoved : List Event :=
  round (gid 0) 0 0 1 ++ [.call 7 (.put "2" "b"), .apply (gid 0) 0, .returns 7] ++
    round (gid 1) 0 1 1 ++ round (gid 1) 1 2 2 ++ round (gid 0) 2 3 2 ++
    [.request (gid 1) 2 2 ⟨0, NShards_pos⟩, .answer 0 3, .acquire 0, .call 8 (.get "2"),
      .apply (gid 1) 1]

theorem sampleMoved_ends : runEnds (World.step (oneShard [0, 1, 2])) World.KeepsData
    World.init sampleMoved (fun w _ => decide
      (w.history.map (fun r => (r.gid, r.reply)) =
        [(gid 0, ⟨.ok, ""⟩), (gid 1, ⟨.ok, "b"⟩)])) = true := by
  decide +kernel

theorem writes_kept_sampleMoved : ∃ w : World,
    w.history.map (fun r => (r.gid, r.reply)) =
      [(gid 0, ⟨.ok, ""⟩), (gid 1, ⟨.ok, "b"⟩)] ∧ w.WritesKept := by
  obtain ⟨w, past, -, ht, hp⟩ := exists_of_runEnds sampleMoved_ends
  exact ⟨w, of_decide_eq_true hp, writes_kept _ w past ht⟩

/-- Group 2 gets the shard and goes on to configuration 3, which gives it back to group 1, before
the goroutine that has found it lagging reads `AllConfigs`: it asks itself. -/
def sampleAskedItself : List Event :=
  round (gid 0) 0 0 1 ++ [.call 7 (.put "2" "b"), .apply (gid 0) 0, .returns 7] ++
    round (gid 1) 0 1 1 ++ round (gid 1) 1 2 2 ++ round (gid 0) 2 3 2 ++
    [.request (gid 1) 2 2 ⟨0, NShards_pos⟩, .answer 0 3, .acquire 0] ++ round (gid 1) 3 4 3 ++
    [.request (gid 1) 2 4 ⟨0, NShards_pos⟩, .answer 1 4, .acquire 1]

example : runEnds (World.step (oneShard [0, 1, 2, 1])) World.KeepsData World.init
    sampleAskedItself (fun w _ => decide
      (w.asked.map (fun a => (a.gid, a.donor, a.args.configNum)) =
        [(gid 1, gid 0, 1), (gid 1, gid 1, 2)])) = true := by
  decide +kernel

/-- Group 2 asks group 1 for the shard twice.  It has the first answer and a write on top of
it when the second one is applied, from group 1 at configuration 3. -/
def writeLostRun : List Event :=
  round (gid 0) 0 0 1 ++ round (gid 0) 1 1 2 ++ round (gid 1) 0 2 1 ++ round (gid 1) 1 3 2 ++
    [.request (gid 1) 2 2 ⟨0, NShards_pos⟩, .request (gid 1) 2 2 ⟨0, NShards_pos⟩, .answer 0 2] ++
    round (gid 0) 2 4 3 ++ [.answer 1 3, .acquire 0, .call 7 (.put "2" "b"), .apply (gid 1) 0,
      .returns 7, .acquire 1, .call 8 (.get "2"), .apply (gid 1) 1]

theorem writeLostRun_ends : runEnds (World.step (oneShard [0, 1, 2, 2])) (fun _ _ => True)
    World.init writeLostRun (fun w _ => decide
      (w.history = [⟨gid 1, ⟨7, 0, .put "2" "b"⟩, true, ⟨.ok, ""⟩⟩,
        ⟨gid 1, ⟨8, 0, .get "2"⟩, true, ⟨.errNoKey, ""⟩⟩])) = true := by
  decide +kernel

/-- An acknowledged write may be lost. -/
theorem write_lost : ¬ ∀ (cs : Configs) (w : World) (past : List World),
    Run cs (fun _ _ => True) (w :: past) → w.WritesKept := by
  intro h
  obtain ⟨w, past, -, ht, hp⟩ := exists_of_runEnds writeLostRun_ends
  have hh := of_decide_eq_true hp
  obtain ⟨i', hi', -, -, -, -, hcase⟩ := h _ w past ht 0 1 _ _ "2" "b" (by decide)
    (by rw [hh]; rfl) (by rw [hh]; rfl) (.inl rfl) rfl rfl rfl
  rcases hcase with ⟨l, -, -, h1, h2, -⟩ | ⟨post, hpost⟩
  · omega
  · have herr : Err.errNoKey = Err.ok := congrArg KVReplyMsg.error hpost
    exact absurd herr (by decide)

end ShardRaft.ShardKV
