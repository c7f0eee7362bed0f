import Mathlib.Logic.Function.Basic
import ShardRaft.Lib.Leadership

/-!
# How a history grows

The five things that are ever written into a `History`: a vote, a new leader, an
entry of the leader, an acknowledgement and a commit.  Each keeps the history
sound under the condition that stands with it, and none takes back what was
recorded (`Extends`).
-/

namespace ShardRaft.Lib

namespace History

variable {ι α : Type} {h h' : History ι α} {term : α → Int} {base : Int}
  {quorum : Finset ι → Prop}

/-- `h'` has all that `h` has. -/
structure Extends (h h' : History ι α) (base : Int) : Prop where
  leads : ∀ T, h.leads T → h'.leads T
  elog : ∀ T, h.leads T → h'.elog T = h.elog T
  llog : ∀ T, h.Origin base T → h.llog T <+: h'.llog T
  voted : ∀ u t, h.voted u t → h'.voted u t
  vlog : ∀ u t, h.voted u t → h'.vlog u t = h.vlog u t
  acks : ∀ u T m, h.acks u T m → h'.acks u T m
  commits : ∀ T p, h.commits T p → h'.commits T p

namespace Extends

theorem refl : h.Extends h base :=
  ⟨fun _ hl => hl, fun _ _ => rfl, fun _ _ => List.prefix_rfl, fun _ _ hv => hv,
    fun _ _ _ => rfl, fun _ _ _ ha => ha, fun _ _ hc => hc⟩

theorem trans {h'' : History ι α} (he : h.Extends h' base) (he' : h'.Extends h'' base) :
    h.Extends h'' base :=
  ⟨fun T hl => he'.leads T (he.leads T hl),
    fun T hl => (he'.elog T (he.leads T hl)).trans (he.elog T hl),
    fun T ho => (he.llog T ho).trans (he'.llog T (ho.imp id (he.leads T))),
    fun u t hv => he'.voted u t (he.voted u t hv),
    fun u t hv => (he'.vlog u t (he.voted u t hv)).trans (he.vlog u t hv),
    fun u T m ha => he'.acks u T m (he.acks u T m ha),
    fun T p hc => he'.commits T p (he.commits T p hc)⟩

theorem origin (he : h.Extends h' base) {T : Int} (ho : h.Origin base T) : h'.Origin base T :=
  ho.imp id (he.leads T)

theorem committed (he : h.Extends h' base) {t : Int} {l : List α} (hc : h.Committed t l) :
    h'.Committed t l := by
  rcases hc with hnil | ⟨T, p, hc, hT, hp⟩
  · exact .inl hnil
  · exact .inr ⟨T, p, he.commits T p hc, hT, hp⟩

theorem segClean (he : h.Extends h' base) {b b' : Nat} {l : List α} (hb : b ≤ b')
    (hs : h.SegClean term base b l) : h'.SegClean term base b' l := by
  intro m a hbm ha
  obtain ⟨ho, hagree⟩ := hs m a (hb.trans hbm) ha
  refine ⟨he.origin ho, ?_⟩
  intro j hbj hj
  have hm := (hagree m (hb.trans hbm) le_rfl).symm.trans ha
  have hlen : j < (h.llog (term a)).length := by
    have := (List.getElem?_eq_some_iff.mp hm).1
    omega
  rw [hagree j (hb.trans hbj) hj, (List.prefix_iff_getElem?.mp (he.llog _ ho)) j hlen,
    List.getElem?_eq_getElem hlen]

theorem lost (he : h.Extends h' base) {p : List α} {T t t' : Int} (ht : t ≤ t')
    (hl : h.Lost p T t) : h'.Lost p T t' := by
  obtain ⟨T', h1, h2, h3, h4⟩ := hl
  exact ⟨T', h1, h2.trans ht, he.leads T' h3, by rw [he.elog T' h3]; exact h4⟩

theorem kept (he : h.Extends h' base) {p l : List α} {T t t' : Int} (ht : t ≤ t')
    (hk : h.Kept term base p T t l) : h'.Kept term base p T t' l :=
  hk.imp id (he.lost ht)

end Extends

theorem Sound.acked_old (hs : h.Sound term base quorum) (he : h.Extends h' base) {u : ι} {T : Int}
    {m : Nat} {p : List α} (hp : p <+: h'.llog T) (ht : EndsIn term T p) (hm : h.acks u T m)
    (hle : p.length ≤ m) : h.Acked term u T p := by
  obtain ⟨hl, hlen⟩ := hs.ack u T m hm
  exact ⟨List.prefix_of_prefix_length_le hp (he.llog T (.inr hl)) (hle.trans hlen), ht, m, hm, hle⟩

/-- Soundness of a grown history, once the parts that did grow are given. -/
theorem Sound.extend (hs : h.Sound term base quorum) (he : h.Extends h' base)
    (hbase : h'.llog base = h.llog base)
    (hleads : ∀ T, h'.leads T → h.leads T)
    (hnew : ∀ T, h.leads T → ∀ m a, (h.llog T).length ≤ m → (h'.llog T)[m]? = some a → term a = T)
    (hkept : ∀ u t, h'.voted u t → ∀ T p, h'.Acked term u T p → T ≤ t →
      h'.Kept term base p T t (h'.vlog u t))
    (hack : ∀ u T m, h'.acks u T m → h'.leads T ∧ m ≤ (h'.llog T).length)
    (hcommit : ∀ T p, h'.commits T p →
      h'.leads T ∧ ∃ q, quorum q ∧ ∀ u ∈ q, h'.Acked term u T p) :
    h'.Sound term base quorum where
  meet := hs.meet
  base_lt := fun T hl => hs.base_lt T (hleads T hl)
  base_log := by rw [hbase]; exact hs.base_log
  grows := by
    intro T hl
    have hl := hleads T hl
    rw [he.elog T hl]
    exact (hs.grows T hl).trans (he.llog T (.inr hl))
  old := by
    intro T hl
    have hl := hleads T hl
    rw [he.elog T hl]
    exact hs.old T hl
  new := by
    intro T hl m a hm ha
    have hl := hleads T hl
    rw [he.elog T hl] at hm
    by_cases hlen : (h.llog T).length ≤ m
    · exact hnew T hl m a hlen ha
    · have hlt : m < (h.llog T).length := by omega
      have hget := (List.prefix_iff_getElem?.mp (he.llog T (.inr hl))) m hlt
      rw [ha, ← List.getElem?_eq_getElem hlt] at hget
      exact hs.new T hl m a hm hget.symm
  form := by
    intro T hl
    have hl := hleads T hl
    obtain ⟨b, hB, hseg⟩ := hs.form T hl
    rw [he.elog T hl]
    exact ⟨b, he.committed hB, he.segClean le_rfl hseg⟩
  voters := by
    intro T hl
    have hl := hleads T hl
    obtain ⟨q, hq, hv⟩ := hs.voters T hl
    rw [he.elog T hl]
    refine ⟨q, hq, ?_⟩
    intro u hu
    rw [he.vlog u _ (hv u hu).1]
    exact ⟨he.voted u _ (hv u hu).1, (hv u hu).2⟩
  kept := hkept
  ack := hack
  commit := hcommit

theorem Sound.commit_extend (hs : h.Sound term base quorum) (he : h.Extends h' base) {T : Int}
    {p : List α} (hc : h.commits T p) :
    h'.leads T ∧ ∃ q, quorum q ∧ ∀ u ∈ q, h'.Acked term u T p := by
  obtain ⟨hl, q, hq, hack⟩ := hs.commit T p hc
  refine ⟨he.leads T hl, q, hq, ?_⟩
  intro u hu
  obtain ⟨hp, ht, m, hm, hle⟩ := hack u hu
  exact ⟨hp.trans (he.llog T (.inr hl)), ht, m, he.acks u T m hm, hle⟩

theorem Sound.ack_extend (hs : h.Sound term base quorum) (he : h.Extends h' base) {u : ι} {T : Int}
    {m : Nat} (hm : h.acks u T m) : h'.leads T ∧ m ≤ (h'.llog T).length := by
  obtain ⟨hl, hlen⟩ := hs.ack u T m hm
  exact ⟨he.leads T hl, hlen.trans (he.llog T (.inr hl)).length_le⟩

/-! ### Votes -/

open Classical in
/-- `u` votes in term `t` with log `l`; only the first vote of a term is kept. -/
noncomputable def addVote (h : History ι α) (u : ι) (t : Int) (l : List α) : History ι α :=
  { h with
    voted := fun u' t' => h.voted u' t' ∨ (u' = u ∧ t' = t)
    vlog := fun u' t' => if u' = u ∧ t' = t ∧ ¬ h.voted u t then l else h.vlog u' t' }

theorem addVote_vlog_old {u u' : ι} {t t' : Int} {l : List α} (hv : h.voted u' t') :
    (h.addVote u t l).vlog u' t' = h.vlog u' t' := by
  refine if_neg ?_
  rintro ⟨rfl, rfl, hn⟩
  exact hn hv

theorem addVote_vlog_new {u : ι} {t : Int} {l : List α} (hv : ¬ h.voted u t) :
    (h.addVote u t l).vlog u t = l :=
  if_pos ⟨rfl, rfl, hv⟩

theorem extends_addVote (u : ι) (t : Int) (l : List α) : h.Extends (h.addVote u t l) base :=
  ⟨fun _ hl => hl, fun _ _ => rfl, fun _ _ => List.prefix_rfl, fun _ _ hv => .inl hv,
    fun _ _ hv => addVote_vlog_old hv, fun _ _ _ ha => ha, fun _ _ hc => hc⟩

/-- A voter votes with a log that has kept what it acknowledged. -/
theorem sound_addVote (hs : h.Sound term base quorum) {u : ι} {t : Int} {l : List α}
    (hk : ∀ T p, h.Acked term u T p → T ≤ t → h.Kept term base p T t l) :
    (h.addVote u t l).Sound term base quorum := by
  refine hs.extend (extends_addVote u t l) rfl (fun _ hl => hl) ?_ ?_ hs.ack hs.commit
  · intro T _ m a hm ha
    change (h.llog T)[m]? = some a at ha
    have := (List.getElem?_eq_some_iff.mp ha).1
    omega
  · intro u' t' hv T p ha hle
    by_cases hold : h.voted u' t'
    · rw [addVote_vlog_old hold]
      exact hs.kept u' t' hold T p ha hle
    · rcases hv with hv | ⟨rfl, rfl⟩
      · exact absurd hv hold
      · rw [addVote_vlog_new hold]
        exact hk T p ha hle

/-! ### Entries, acknowledgements and commits -/

/-- The leader of term `T` adds an entry to its log. -/
def addEntry (h : History ι α) (T : Int) (a : α) : History ι α :=
  { h with llog := Function.update h.llog T (h.llog T ++ [a]) }

theorem addEntry_llog_self (T : Int) (a : α) : (h.addEntry T a).llog T = h.llog T ++ [a] :=
  Function.update_self ..

theorem addEntry_llog_ne {T T' : Int} (hne : T' ≠ T) (a : α) :
    (h.addEntry T a).llog T' = h.llog T' :=
  Function.update_of_ne hne ..

theorem extends_addEntry (T : Int) (a : α) : h.Extends (h.addEntry T a) base := by
  refine ⟨fun _ hl => hl, fun _ _ => rfl, ?_, fun _ _ hv => hv, fun _ _ _ => rfl,
    fun _ _ _ ha => ha, fun _ _ hc => hc⟩
  intro T' _
  by_cases hne : T' = T
  · rw [hne, addEntry_llog_self]; exact List.prefix_append _ _
  · rw [addEntry_llog_ne hne]

theorem sound_addEntry (hs : h.Sound term base quorum) {T : Int} {a : α} (hl : h.leads T)
    (ha : term a = T) : (h.addEntry T a).Sound term base quorum := by
  have he : h.Extends (h.addEntry T a) base := extends_addEntry T a
  have hb := hs.base_lt T hl
  refine hs.extend he (addEntry_llog_ne (by omega) a) (fun _ hl' => hl') ?_ ?_
    (fun u T' m hm => hs.ack_extend he hm) (fun T' p hc => hs.commit_extend he hc)
  · intro T' _ m c hm hc
    by_cases hne : T' = T
    · rw [hne, addEntry_llog_self] at hc
      rw [hne] at hm
      rw [List.getElem?_append_right hm] at hc
      have hmem : c ∈ [a] := List.mem_of_getElem? hc
      rw [List.mem_singleton.mp hmem, hne]
      exact ha
    · rw [addEntry_llog_ne hne] at hc
      have := (List.getElem?_eq_some_iff.mp hc).1
      omega
  · intro u t hv T' p hack hle
    obtain ⟨hp, ht, m, hm, hlen⟩ := hack
    exact he.kept le_rfl (hs.kept u t hv T' p (hs.acked_old he hp ht hm hlen) hle)

theorem clean_addEntry (hs : h.Sound term base quorum) (hc : h.Clean term base) {T : Int} {a : α}
    (hl : h.leads T) (ha : term a = T) : (h.addEntry T a).Clean term base := by
  have hb := hs.base_lt T hl
  have he : h.Extends (h.addEntry T a) base := extends_addEntry T a
  intro T' ho m c hm
  by_cases hne : T' = T
  · subst hne
    rw [addEntry_llog_self] at hm ⊢
    by_cases hlt : m < (h.llog T').length
    · rw [List.getElem?_append_left hlt] at hm
      obtain ⟨ho', hp⟩ := hc T' (.inr hl) m c hm
      rw [List.take_append_of_le_length (by omega)]
      exact ⟨he.origin ho', hp.trans (he.llog _ ho')⟩
    · rw [List.getElem?_append_right (by omega)] at hm
      have hmem : c ∈ [a] := List.mem_of_getElem? hm
      rw [List.mem_singleton.mp hmem, ha, addEntry_llog_self]
      exact ⟨.inr hl, List.take_prefix _ _⟩
  · rw [addEntry_llog_ne hne] at hm ⊢
    obtain ⟨ho', hp⟩ := hc T' ho m c hm
    exact ⟨he.origin ho', hp.trans (he.llog _ ho')⟩

/-- `u` acknowledges `m` entries of the leader of term `T`. -/
def addAck (h : History ι α) (u : ι) (T : Int) (m : Nat) : History ι α :=
  { h with acks := fun u' T' m' => h.acks u' T' m' ∨ (u' = u ∧ T' = T ∧ m' = m) }

theorem extends_addAck (u : ι) (T : Int) (m : Nat) : h.Extends (h.addAck u T m) base :=
  ⟨fun _ hl => hl, fun _ _ => rfl, fun _ _ => List.prefix_rfl, fun _ _ hv => hv, fun _ _ _ => rfl,
    fun _ _ _ ha => .inl ha, fun _ _ hc => hc⟩

/-- Nobody acknowledges entries of a term in which, or after which, it has voted. -/
theorem sound_addAck (hs : h.Sound term base quorum) {u : ι} {T : Int} {m : Nat} (hl : h.leads T)
    (hm : m ≤ (h.llog T).length) (hv : ∀ t, h.voted u t → t < T) :
    (h.addAck u T m).Sound term base quorum := by
  have he : h.Extends (h.addAck u T m) base := extends_addAck u T m
  refine hs.extend he rfl (fun _ hl' => hl') ?_ ?_ ?_ (fun T' p hc => hs.commit_extend he hc)
  · intro T' _ k a hk ha
    change (h.llog T')[k]? = some a at ha
    have := (List.getElem?_eq_some_iff.mp ha).1
    omega
  · intro u' t hvt T' p hack hle
    obtain ⟨hp, ht, k, hk, hlen⟩ := hack
    rcases hk with hk | ⟨rfl, rfl, -⟩
    · exact he.kept le_rfl (hs.kept u' t hvt T' p (hs.acked_old he hp ht hk hlen) hle)
    · have := hv t hvt
      omega
  · intro u' T' k hk
    rcases hk with hk | ⟨-, rfl, rfl⟩
    · exact hs.ack u' T' k hk
    · exact ⟨hl, hm⟩

/-- The leader of term `T` commits `p`. -/
def addCommit (h : History ι α) (T : Int) (p : List α) : History ι α :=
  { h with commits := fun T' p' => h.commits T' p' ∨ (T' = T ∧ p' = p) }

theorem extends_addCommit (T : Int) (p : List α) : h.Extends (h.addCommit T p) base :=
  ⟨fun _ hl => hl, fun _ _ => rfl, fun _ _ => List.prefix_rfl, fun _ _ hv => hv, fun _ _ _ => rfl,
    fun _ _ _ ha => ha, fun _ _ hc => .inl hc⟩

theorem sound_addCommit (hs : h.Sound term base quorum) {T : Int} {p : List α} (hl : h.leads T)
    {q : Finset ι} (hq : quorum q) (hack : ∀ u ∈ q, h.Acked term u T p) :
    (h.addCommit T p).Sound term base quorum := by
  have he : h.Extends (h.addCommit T p) base := extends_addCommit T p
  refine hs.extend he rfl (fun _ hl' => hl') ?_ ?_ hs.ack ?_
  · intro T' _ k a hk ha
    change (h.llog T')[k]? = some a at ha
    have := (List.getElem?_eq_some_iff.mp ha).1
    omega
  · exact fun u t hv T' p' ha hle => he.kept le_rfl (hs.kept u t hv T' p' ha hle)
  · intro T' p' hc
    rcases hc with hc | ⟨rfl, rfl⟩
    · exact hs.commit_extend he hc
    · exact ⟨hl, q, hq, hack⟩

/-! ### A new leader -/

/-- A leader of term `T` is elected with log `e`. -/
def addLeader (h : History ι α) (T : Int) (e : List α) : History ι α :=
  { h with
    leads := fun T' => h.leads T' ∨ T' = T
    elog := Function.update h.elog T e
    llog := Function.update h.llog T e }

theorem addLeader_llog_ne {T T' : Int} (hne : T' ≠ T) (e : List α) :
    (h.addLeader T e).llog T' = h.llog T' :=
  Function.update_of_ne hne ..

theorem addLeader_elog_ne {T T' : Int} (hne : T' ≠ T) (e : List α) :
    (h.addLeader T e).elog T' = h.elog T' :=
  Function.update_of_ne hne ..

theorem addLeader_llog_self (T : Int) (e : List α) : (h.addLeader T e).llog T = e :=
  Function.update_self ..

theorem addLeader_elog_self (T : Int) (e : List α) : (h.addLeader T e).elog T = e :=
  Function.update_self ..

theorem extends_addLeader {T : Int} (hT : base < T) (hn : ¬ h.leads T) (e : List α) :
    h.Extends (h.addLeader T e) base := by
  have hne : ∀ T', h.leads T' → T' ≠ T := fun T' hl heq => hn (heq ▸ hl)
  refine ⟨fun _ hl => .inl hl, ?_, ?_, fun _ _ hv => hv, fun _ _ _ => rfl, fun _ _ _ ha => ha,
    fun _ _ hc => hc⟩
  · exact fun T' hl => addLeader_elog_ne (hne T' hl) e
  · intro T' ho
    have hT' : T' ≠ T := by
      rcases ho with heq | hl
      · omega
      · exact hne T' hl
    rw [addLeader_llog_ne hT']

/-- An elected log: below its boundary it is committed, above it comes from the
leaders, and a quorum has found it up to date. -/
theorem sound_addLeader (hs : h.Sound term base quorum) {T : Int} {e : List α} (hT : base < T)
    (hn : ¬ h.leads T) (hold : ∀ a ∈ e, term a < T) {b : Nat} (hB : h.Committed (T - 1) (e.take b))
    (hseg : h.SegClean term base b e) {q : Finset ι} (hq : quorum q)
    (hv : ∀ u ∈ q, h.voted u (T - 1) ∧ UpToDate term base (h.vlog u (T - 1)) e) :
    (h.addLeader T e).Sound term base quorum := by
  have he : h.Extends (h.addLeader T e) base := extends_addLeader hT hn e
  have hne : ∀ T', h.leads T' → T' ≠ T := fun T' hl heq => hn (heq ▸ hl)
  refine ⟨hs.meet, ?_, ?_, ?_, ?_, ?_, ?_, ?_, ?_, ?_, ?_⟩
  · intro T' hl
    rcases hl with hl | rfl
    · exact hs.base_lt T' hl
    · exact hT
  · rw [addLeader_llog_ne (by omega)]; exact hs.base_log
  · intro T' hl
    rcases hl with hl | rfl
    · rw [addLeader_elog_ne (hne T' hl), addLeader_llog_ne (hne T' hl)]; exact hs.grows T' hl
    · rw [addLeader_elog_self, addLeader_llog_self]
  · intro T' hl
    rcases hl with hl | rfl
    · rw [addLeader_elog_ne (hne T' hl)]; exact hs.old T' hl
    · rw [addLeader_elog_self]; exact hold
  · intro T' hl m a hm ha
    rcases hl with hl | rfl
    · rw [addLeader_elog_ne (hne T' hl)] at hm
      rw [addLeader_llog_ne (hne T' hl)] at ha
      exact hs.new T' hl m a hm ha
    · rw [addLeader_elog_self] at hm
      rw [addLeader_llog_self] at ha
      have := (List.getElem?_eq_some_iff.mp ha).1
      omega
  · intro T' hl
    rcases hl with hl | rfl
    · obtain ⟨b', hB', hseg'⟩ := hs.form T' hl
      rw [addLeader_elog_ne (hne T' hl)]
      exact ⟨b', he.committed hB', he.segClean le_rfl hseg'⟩
    · rw [addLeader_elog_self]
      exact ⟨b, he.committed hB, he.segClean le_rfl hseg⟩
  · intro T' hl
    rcases hl with hl | rfl
    · rw [addLeader_elog_ne (hne T' hl)]; exact hs.voters T' hl
    · rw [addLeader_elog_self]; exact ⟨q, hq, hv⟩
  · intro u t hvt T' p hack hle
    obtain ⟨hp, ht, m, hm, hlen⟩ := hack
    exact he.kept le_rfl (hs.kept u t hvt T' p (hs.acked_old he hp ht hm hlen) hle)
  · exact fun u T' m hm => hs.ack_extend he hm
  · exact fun T' p hc => hs.commit_extend he hc

theorem clean_addLeader (hc : h.Clean term base) {T : Int} {e : List α} (hT : base < T)
    (hn : ¬ h.leads T) (hne : e ≠ []) (hs' : (h.addLeader T e).Sound term base quorum) : (h.addLeader T e).Clean term base := by
  have he : h.Extends (h.addLeader T e) base := extends_addLeader hT hn e
  -- the new leader's log is a prefix of an older one
  obtain ⟨t, ho, hlt, hpre⟩ := hs'.elog_origin (.inr rfl) (by rw [addLeader_elog_self]; exact hne)
  rw [addLeader_elog_self, addLeader_llog_ne (by omega)] at hpre
  have ho : h.Origin base t := by
    rcases ho with heq | hl | heq
    · exact .inl heq
    · exact .inr hl
    · omega
  have holdc : ∀ T', h.Origin base T' → ∀ l, l <+: h.llog T' → ∀ m a, l[m]? = some a →
      (h.addLeader T e).Origin base (term a) ∧
        l.take (m + 1) <+: (h.addLeader T e).llog (term a) := by
    intro T' hoT l hl m a ha
    have hm : m < l.length := (List.getElem?_eq_some_iff.mp ha).1
    have hget := (List.prefix_iff_getElem?.mp hl) m hm
    rw [← List.getElem?_eq_getElem hm, ha] at hget
    obtain ⟨ho', hp⟩ := hc T' hoT m a hget
    refine ⟨he.origin ho', ?_⟩
    have htake : l.take (m + 1) = (h.llog T').take (m + 1) := by
      obtain ⟨s, hs⟩ := hl
      rw [← hs, List.take_append_of_le_length (by omega)]
    rw [htake]
    exact hp.trans (he.llog _ ho')
  intro T' hoT m a ha
  by_cases heq : T' = T
  · rw [heq, addLeader_llog_self] at ha ⊢
    exact holdc t ho e hpre m a ha
  · rw [addLeader_llog_ne heq] at ha ⊢
    have hoT : h.Origin base T' := by
      rcases hoT with h1 | h1 | h1
      · exact .inl h1
      · exact .inr h1
      · exact absurd h1 heq
    exact holdc T' hoT _ List.prefix_rfl m a ha

end History

end ShardRaft.Lib
