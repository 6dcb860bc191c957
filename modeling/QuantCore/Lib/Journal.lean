import Mathlib.Data.List.DropRight
import Mathlib.Order.Lattice

/-!
# Journals

A journal is kept in order of height. A record is put at its end, over those it
replaces; records of one height that count as the same are kept once. A log of
every record that was ever put, those of abandoned heights included, gives a
journal again when it is replayed.

What a replay holds below a height, and at it, can be followed apart: records of
a height only meet those of that height. So a journal and its log part ways only
over what the log still has at a height when new records of that height are put.
-/

namespace Journal

/-- How records are put: what their height is, whether a record replaces those of
its own height, and which count as the same. -/
structure Rule (ρ η : Type) where
  height : ρ → η
  evicts : Bool
  same : ρ → ρ → Bool

namespace Rule

variable {ρ η : Type} [LinearOrder η] (R : Rule ρ η)

/-- A record at the end is replaced by a new one. -/
def pops (r x : ρ) : Bool := if R.evicts then R.height x ≥ R.height r else R.height x > R.height r

/-- Pop what is replaced, and push the record unless it is there already. -/
def put (v : List ρ) (r : ρ) : List ρ :=
  let w := v.rdropWhile (R.pops r)
  if (w.rtakeWhile fun x => R.height x = R.height r).any (R.same r) then w else w ++ [r]

/-- The journal of a log. -/
def replay (log : List ρ) : List ρ := log.foldl R.put []

/-- Pop what is above a height. -/
def trim (h : η) (v : List ρ) : List ρ := v.rdropWhile fun x => R.height x > h

/-- A record can stand before another. -/
def Fits (a b : ρ) : Prop :=
  R.height a < R.height b ∨
    (R.height a = R.height b ∧ R.evicts = false ∧ R.same b a = false)

def Ordered (v : List ρ) : Prop := v.Pairwise R.Fits

/-- What a log has at a height since it was last below it. -/
def stale (n : η) (log : List ρ) : List ρ :=
  (log.rtakeWhile fun x => R.height x ≥ n).filter fun x => R.height x = n

/-- Push a record unless it is there already. -/
def add (v : List ρ) (r : ρ) : List ρ := if v.any (R.same r) then v else v ++ [r]

/-- The records of a list, each kept once. -/
def once (l : List ρ) : List ρ := l.foldl R.add []

/-- A log gives back what was kept below a height. -/
def Faithful (log v : List ρ) (n : η) : Prop :=
  ((R.replay log).filter fun x => R.height x < n) = v

end Rule

variable {ρ η : Type} [LinearOrder η] {R : Rule ρ η}

/-! ## Popping as filtering -/

theorem rdropWhile_eq_filter {p : ρ → Bool} {v : List ρ}
    (h : v.Pairwise fun a b => p a = true → p b = true) :
    v.rdropWhile p = v.filter fun x => !p x := by
  induction v using List.reverseRecOn with
  | nil => rfl
  | append_singleton v x ih =>
      rw [List.pairwise_append] at h
      rw [List.rdropWhile_concat, List.filter_append]
      split
      · next hx =>
          have hnil : [x].filter (fun y => !p y) = [] := by
            rw [List.filter_cons_of_neg (by rw [hx]; decide), List.filter_nil]
          rw [ih h.1, hnil, List.append_nil]
      · next hx =>
          have hall : ∀ a ∈ v, (!p a) = true := by
            intro a ha
            rw [Bool.not_eq_true']
            exact Bool.eq_false_iff.mpr fun hp => hx (h.2.2 a ha x (List.mem_singleton_self x) hp)
          have hone : [x].filter (fun y => !p y) = [x] := by
            rw [List.filter_cons_of_pos (by rw [Bool.eq_false_iff.mpr hx]; rfl), List.filter_nil]
          rw [List.filter_eq_self.mpr hall, hone]

theorem rtakeWhile_eq_filter {p : ρ → Bool} {v : List ρ}
    (h : v.Pairwise fun a b => p a = true → p b = true) : v.rtakeWhile p = v.filter p := by
  induction v using List.reverseRecOn with
  | nil => rfl
  | append_singleton v x ih =>
      rw [List.pairwise_append] at h
      rw [List.rtakeWhile_concat, List.filter_append]
      split
      · next hx => rw [ih h.1, List.filter_cons_of_pos hx, List.filter_nil]
      · next hx =>
          have hnil : v.filter p = [] := by
            rw [List.filter_eq_nil_iff]
            exact fun a ha hp => hx (h.2.2 a ha x (List.mem_singleton_self x) hp)
          rw [hnil, List.filter_cons_of_neg hx, List.filter_nil, List.append_nil]

namespace Rule

theorem Ordered.heights {v : List ρ} (h : R.Ordered v) :
    v.Pairwise fun a b => R.height a ≤ R.height b := by
  refine h.imp fun {a b} hab => ?_
  rcases hab with hlt | heq
  · exact hlt.le
  · exact heq.1.le

theorem Ordered.filter {v : List ρ} (h : R.Ordered v) (p : ρ → Bool) :
    R.Ordered (v.filter p) :=
  List.Pairwise.filter p h

/-- What is above a height is at the end. -/
theorem trim_eq {v : List ρ} (h : R.Ordered v) (n : η) :
    R.trim n v = v.filter fun x => R.height x ≤ n := by
  rw [trim, rdropWhile_eq_filter]
  · refine List.filter_congr fun x _ => ?_
    rw [← decide_not]
    exact decide_eq_decide.mpr not_lt
  · refine h.heights.imp fun hab ha => ?_
    rw [decide_eq_true_eq] at ha ⊢
    exact lt_of_lt_of_le ha hab

theorem pops_mono {v : List ρ} (h : R.Ordered v) (r : ρ) :
    v.Pairwise fun a b => R.pops r a = true → R.pops r b = true := by
  refine h.heights.imp fun {a b} hab ha => ?_
  rw [pops] at ha ⊢
  split
  · next he =>
      rw [if_pos he, decide_eq_true_eq] at ha
      exact decide_eq_true (ge_trans hab ha)
  · next he =>
      rw [if_neg he, decide_eq_true_eq] at ha
      exact decide_eq_true (lt_of_lt_of_le ha hab)

/-- What is left under a record is no higher than it. -/
theorem height_le_of_not_pops {r x : ρ} (h : R.pops r x = false) : R.height x ≤ R.height r := by
  rw [pops] at h
  split at h
  · exact (not_le.mp (of_decide_eq_false h)).le
  · exact not_lt.mp (of_decide_eq_false h)

theorem of_mem_kept {v : List ρ} {r x : ρ} (h : x ∈ v.filter fun x => !R.pops r x) :
    x ∈ v ∧ R.pops r x = false := by
  rw [List.mem_filter, Bool.not_eq_true'] at h
  exact h

/-- Putting a record, by filters. -/
theorem put_eq {v : List ρ} (h : R.Ordered v) (r : ρ) :
    R.put v r =
      if ((v.filter fun x => !R.pops r x).filter fun x => R.height x = R.height r).any (R.same r)
      then v.filter fun x => !R.pops r x
      else (v.filter fun x => !R.pops r x) ++ [r] := by
  have htake : (v.filter fun x => !R.pops r x).Pairwise fun a b =>
      decide (R.height a = R.height r) = true → decide (R.height b = R.height r) = true := by
    refine (h.filter _).heights.imp_of_mem fun {a b} _ hb hab ha => ?_
    rw [decide_eq_true_eq] at ha ⊢
    have hle := height_le_of_not_pops (of_mem_kept hb).2
    exact le_antisymm hle (ha ▸ hab)
  rw [put, rdropWhile_eq_filter (pops_mono h r), rtakeWhile_eq_filter htake]

theorem put_ordered {v : List ρ} (h : R.Ordered v) (r : ρ) : R.Ordered (R.put v r) := by
  rw [put_eq h]
  split
  · exact h.filter _
  · next hsame =>
      rw [Ordered, List.pairwise_append]
      refine ⟨h.filter _, List.pairwise_singleton _ _, fun a ha b hb => ?_⟩
      obtain rfl := List.mem_singleton.mp hb
      have hpops := (of_mem_kept ha).2
      rcases (height_le_of_not_pops hpops).lt_or_eq with hlt | heq
      · exact .inl hlt
      · refine .inr ⟨heq, ?_, ?_⟩
        · rw [pops] at hpops
          split at hpops
          · exact absurd heq.ge (of_decide_eq_false hpops)
          · next he => exact Bool.eq_false_iff.mpr he
        · rw [Bool.eq_false_iff]
          intro hs
          exact hsame (List.any_eq_true.mpr
            ⟨a, List.mem_filter.mpr ⟨ha, decide_eq_true heq⟩, hs⟩)

/-- Below its height, putting a record changes nothing. -/
theorem put_below {v : List ρ} (h : R.Ordered v) {r : ρ} {n : η} (hr : R.height r = n) :
    (R.put v r).filter (fun x => R.height x < n) = v.filter fun x => R.height x < n := by
  have hkeep : (v.filter fun x => !R.pops r x).filter (fun x => R.height x < n) =
      v.filter fun x => R.height x < n := by
    rw [List.filter_filter]
    refine List.filter_congr fun x _ => ?_
    by_cases hx : R.height x < n
    · have hpops : R.pops r x = false := by
        rw [← hr] at hx
        rw [pops]
        split
        · exact decide_eq_false (not_le.mpr hx)
        · exact decide_eq_false (not_lt.mpr hx.le)
      rw [hpops, Bool.not_false, Bool.and_true]
    · rw [decide_eq_false hx, Bool.false_and]
  have hout : [r].filter (fun x => R.height x < n) = [] := by
    rw [List.filter_cons_of_neg (by rw [hr, decide_eq_true_eq]; exact lt_irrefl n), List.filter_nil]
  rw [put_eq h]
  split
  · exact hkeep
  · rw [List.filter_append, hkeep, hout, List.append_nil]

/-- At its height, a record is put among those of that height. -/
theorem put_at {v : List ρ} (h : R.Ordered v) {r : ρ} {n : η} (hr : R.height r = n) :
    (R.put v r).filter (fun x => R.height x = n) =
      R.put (v.filter fun x => R.height x = n) r := by
  have hcomm : (v.filter fun x => !R.pops r x).filter (fun x => R.height x = n) =
      (v.filter fun x => R.height x = n).filter fun x => !R.pops r x := by
    rw [List.filter_filter, List.filter_filter]
    exact List.filter_congr fun x _ => Bool.and_comm ..
  have hidem : ((v.filter fun x => R.height x = n).filter fun x => !R.pops r x).filter
      (fun x => R.height x = n) =
        (v.filter fun x => R.height x = n).filter fun x => !R.pops r x := by
    rw [← hcomm, List.filter_filter]
    exact List.filter_congr fun x _ => Bool.and_self _
  have hone : [r].filter (fun x => decide (R.height x = n)) = [r] :=
    List.filter_cons_of_pos (decide_eq_true hr)
  rw [put_eq h, put_eq (h.filter _), hr, hcomm, hidem]
  split
  · exact hcomm.trans rfl
  · rw [List.filter_append, hcomm, hone]

/-- Over records that are all lower, a record is pushed. -/
theorem put_over {v : List ρ} (h : R.Ordered v) {r : ρ} (hlow : ∀ x ∈ v, R.height x < R.height r) :
    R.put v r = v ++ [r] := by
  have hkeep : (v.filter fun x => !R.pops r x) = v := by
    rw [List.filter_eq_self]
    intro x hx
    rw [Bool.not_eq_true', pops]
    split
    · exact decide_eq_false (not_le.mpr (hlow x hx))
    · exact decide_eq_false (hlow x hx).asymm
  have hnone : (v.filter fun x => R.height x = R.height r) = [] := by
    rw [List.filter_eq_nil_iff]
    intro x hx heq
    exact (hlow x hx).ne (of_decide_eq_true heq)
  rw [put_eq h, hkeep, hnone, List.any_nil, if_neg Bool.false_ne_true]

/-! ## Records of one height -/

theorem foldl_put {v : List ρ} (h : R.Ordered v) {n : η} (rs : List ρ)
    (hrs : ∀ r ∈ rs, R.height r = n) :
    R.Ordered (rs.foldl R.put v) ∧
      (rs.foldl R.put v).filter (fun x => R.height x < n) = v.filter (fun x => R.height x < n) ∧
      (rs.foldl R.put v).filter (fun x => R.height x = n) =
        rs.foldl R.put (v.filter fun x => R.height x = n) := by
  induction rs generalizing v with
  | nil => exact ⟨h, rfl, rfl⟩
  | cons r rs ih =>
      rw [List.forall_mem_cons] at hrs
      obtain ⟨hord, hbelow, hat⟩ := ih (put_ordered h r) hrs.2
      rw [put_below h hrs.1] at hbelow
      rw [put_at h hrs.1] at hat
      exact ⟨hord, hbelow, hat⟩

theorem filter_le {v : List ρ} (h : R.Ordered v) (n : η) :
    (v.filter fun x => R.height x ≤ n) =
      (v.filter fun x => R.height x < n) ++ v.filter fun x => R.height x = n := by
  induction v with
  | nil => rfl
  | cons a v ih =>
      rw [Ordered, List.pairwise_cons] at h
      have hv := ih h.2
      rw [List.filter_cons, List.filter_cons, List.filter_cons]
      rcases lt_trichotomy (R.height a) n with hlt | heq | hgt
      · rw [if_pos (decide_eq_true hlt.le), if_pos (decide_eq_true hlt),
          if_neg (by rw [decide_eq_true_eq]; exact hlt.ne), hv, List.cons_append]
      · have hnone : (v.filter fun x => R.height x < n) = [] := by
          rw [List.filter_eq_nil_iff]
          intro b hb hlt
          rw [decide_eq_true_eq] at hlt
          rcases h.1 b hb with hab | hab
          · exact absurd (hab.trans hlt) heq.not_lt
          · exact absurd (hab.1.trans_lt hlt) heq.not_lt
        rw [hnone, List.nil_append] at hv
        rw [if_pos (decide_eq_true heq.le), if_neg (by rw [decide_eq_true_eq]; exact heq.not_lt),
          if_pos (decide_eq_true heq), hv, hnone, List.nil_append]
      · rw [if_neg (by rw [decide_eq_true_eq]; exact not_le.mpr hgt),
          if_neg (by rw [decide_eq_true_eq]; exact hgt.asymm),
          if_neg (by rw [decide_eq_true_eq]; exact hgt.ne'), hv]

/-- A journal replays to itself. -/
theorem replay_self {v : List ρ} (h : R.Ordered v) : R.replay v = v := by
  induction v using List.reverseRecOn with
  | nil => rfl
  | append_singleton v r ih =>
      rw [Ordered, List.pairwise_append] at h
      have hfit : ∀ a ∈ v, R.Fits a r := fun a ha => h.2.2 a ha r (List.mem_singleton_self r)
      have hkeep : (v.filter fun x => !R.pops r x) = v := by
        rw [List.filter_eq_self]
        intro a ha
        rw [Bool.not_eq_true', pops]
        split
        · next he =>
            rcases hfit a ha with hlt | heq
            · exact decide_eq_false (not_le.mpr hlt)
            · cases he.symm.trans heq.2.1
        · rcases hfit a ha with hlt | heq
          · exact decide_eq_false hlt.asymm
          · exact decide_eq_false heq.1.le.not_gt
      have hnew : ((v.filter fun x => R.height x = R.height r).any (R.same r)) = false := by
        rw [List.any_eq_false]
        intro a ha hs
        rw [List.mem_filter, decide_eq_true_eq] at ha
        rcases hfit a ha.1 with hlt | heq
        · exact hlt.ne ha.2
        · cases hs.symm.trans heq.2.2
      rw [replay, List.foldl_append, List.foldl_cons, List.foldl_nil]
      show R.put (R.replay v) r = _
      rw [ih h.1, put_eq h.1, hkeep, hnew, if_neg Bool.false_ne_true]

theorem replay_ordered (log : List ρ) : R.Ordered (R.replay log) :=
  List.foldlRecOn log (motive := R.Ordered) _ List.Pairwise.nil fun _ hv r _ => put_ordered hv r

theorem replay_append (log rs : List ρ) : R.replay (log ++ rs) = rs.foldl R.put (R.replay log) := by
  rw [replay, List.foldl_append]
  rfl

theorem replay_concat (log : List ρ) (r : ρ) :
    R.replay (log ++ [r]) = R.put (R.replay log) r :=
  replay_append log [r]

theorem mem_put {v : List ρ} {r x : ρ} (h : x ∈ R.put v r) : x ∈ v ∨ x = r := by
  rw [put] at h
  split at h
  · exact .inl ((List.rdropWhile_prefix _ _).subset h)
  · rw [List.mem_append, List.mem_singleton] at h
    exact h.imp_left fun hx => (List.rdropWhile_prefix _ _).subset hx

/-- A replay makes up nothing. -/
theorem mem_replay {log : List ρ} {x : ρ} (h : x ∈ R.replay log) : x ∈ log := by
  induction log using List.reverseRecOn with
  | nil => cases h
  | append_singleton log r ih =>
      rw [replay_concat] at h
      rw [List.mem_append, List.mem_singleton]
      exact (mem_put h).imp_left ih

/-! ## What a log still has at a height -/

/-- A higher record leaves those of a height alone. -/
theorem put_above {v : List ρ} (h : R.Ordered v) {r : ρ} {n : η} (hr : n < R.height r) :
    (R.put v r).filter (fun x => R.height x = n) = v.filter fun x => R.height x = n := by
  have hkeep : (v.filter fun x => !R.pops r x).filter (fun x => R.height x = n) =
      v.filter fun x => R.height x = n := by
    rw [List.filter_filter]
    refine List.filter_congr fun x _ => ?_
    by_cases hx : R.height x = n
    · have hpops : R.pops r x = false := by
        rw [pops, hx]
        split
        · exact decide_eq_false (not_le.mpr hr)
        · exact decide_eq_false hr.asymm
      rw [hpops, Bool.not_false, Bool.and_true]
    · rw [decide_eq_false hx, Bool.false_and]
  rw [put_eq h]
  split
  · exact hkeep
  · rw [List.filter_append, hkeep, List.filter_cons_of_neg, List.filter_nil, List.append_nil]
    rw [decide_eq_true_eq]
    exact hr.ne'

/-- A lower record takes those of a height away. -/
theorem put_under {v : List ρ} (h : R.Ordered v) {r : ρ} {n : η} (hr : R.height r < n) :
    (R.put v r).filter (fun x => R.height x = n) = [] := by
  rw [List.filter_eq_nil_iff]
  intro x hx hn
  rw [decide_eq_true_eq] at hn
  have hle : R.height x ≤ R.height r := by
    rw [put_eq h] at hx
    split at hx
    · exact height_le_of_not_pops (of_mem_kept hx).2
    · rcases List.mem_append.mp hx with hx | hx
      · exact height_le_of_not_pops (of_mem_kept hx).2
      · rw [List.mem_singleton.mp hx]
  exact (hn ▸ hle).not_gt hr

theorem replay_at (n : η) (log : List ρ) :
    (R.replay log).filter (fun x => R.height x = n) = R.replay (R.stale n log) := by
  induction log using List.reverseRecOn with
  | nil => rfl
  | append_singleton log r ih =>
      rw [replay_concat, stale, List.rtakeWhile_concat]
      rcases lt_trichotomy (R.height r) n with hlt | heq | hgt
      · rw [put_under (replay_ordered log) hlt,
          if_neg (by rw [decide_eq_true_eq]; exact not_le.mpr hlt)]
        rfl
      · have hone : [r].filter (fun x => R.height x = n) = [r] :=
          List.filter_cons_of_pos (decide_eq_true heq)
        rw [put_at (replay_ordered log) heq, ih, if_pos (decide_eq_true heq.ge), List.filter_append,
          hone, replay_concat]
        rfl
      · have hnone : [r].filter (fun x => R.height x = n) = [] :=
          List.filter_cons_of_neg (by rw [decide_eq_true_eq]; exact hgt.ne')
        rw [put_above (replay_ordered log) hgt, ih, if_pos (decide_eq_true hgt.le),
          List.filter_append, hnone, List.append_nil]
        rfl

theorem stale_height {n : η} {log : List ρ} {r : ρ} (h : r ∈ R.stale n log) : R.height r = n :=
  of_decide_eq_true (List.mem_filter.mp h).2

/-! ## Replays of records of one height -/

/-- Where records replace those of their height, the last is left. -/
theorem replay_evicts (he : R.evicts = true) {n : η} {rs : List ρ}
    (hrs : ∀ r ∈ rs, R.height r = n) : R.replay rs = rs.getLast?.toList := by
  induction rs using List.reverseRecOn with
  | nil => rfl
  | append_singleton rs r ih =>
      rw [List.forall_mem_append] at hrs
      have hr := hrs.2 r (List.mem_singleton_self r)
      have hnone : ((R.replay rs).filter fun x => !R.pops r x) = [] := by
        rw [List.filter_eq_nil_iff]
        intro x hx hpops
        rw [Bool.not_eq_true', pops, if_pos he] at hpops
        exact of_decide_eq_false hpops (hr.trans (hrs.1 x (mem_replay hx)).symm).le
      rw [replay_concat, put_eq (replay_ordered rs), hnone, List.getLast?_concat]
      rfl

/-- Elsewhere those that count as the same are left out. -/
theorem replay_keeps (he : R.evicts = false) {n : η} {rs : List ρ}
    (hrs : ∀ r ∈ rs, R.height r = n) : R.replay rs = R.once rs := by
  induction rs using List.reverseRecOn with
  | nil => rfl
  | append_singleton rs r ih =>
      rw [List.forall_mem_append] at hrs
      have hr := hrs.2 r (List.mem_singleton_self r)
      have hn : ∀ x ∈ R.replay rs, R.height x = n := fun x hx => hrs.1 x (mem_replay hx)
      have hall : ((R.replay rs).filter fun x => !R.pops r x) = R.replay rs := by
        rw [List.filter_eq_self]
        intro x hx
        rw [Bool.not_eq_true', pops, he, if_neg Bool.false_ne_true, hn x hx, hr]
        exact decide_eq_false (lt_irrefl n)
      have hat : ((R.replay rs).filter fun x => R.height x = R.height r) = R.replay rs := by
        rw [List.filter_eq_self]
        intro x hx
        exact decide_eq_true ((hn x hx).trans hr.symm)
      have honce : R.once (rs ++ [r]) = R.add (R.once rs) r := by
        rw [once, List.foldl_append]
        rfl
      rw [replay_concat, put_eq (replay_ordered rs), hall, hat, ih hrs.1, honce, add]

omit [LinearOrder η] in
theorem add_prefix (v rs : List ρ) : v <+: rs.foldl R.add v := by
  induction rs generalizing v with
  | nil => exact List.prefix_refl v
  | cons r rs ih =>
      rw [List.foldl_cons]
      refine List.IsPrefix.trans ?_ (ih _)
      rw [add]
      split
      · exact List.prefix_refl v
      · exact List.prefix_append v [r]

omit [LinearOrder η] in
theorem once_distinct (l : List ρ) : (R.once l).Pairwise fun a b => R.same b a = false := by
  induction l using List.reverseRecOn with
  | nil => exact List.Pairwise.nil
  | append_singleton l r ih =>
      rw [once, List.foldl_append, List.foldl_cons, List.foldl_nil, add]
      split
      · exact ih
      · next hr =>
          rw [List.pairwise_append]
          refine ⟨ih, List.pairwise_singleton _ _, fun a ha b hb => ?_⟩
          obtain rfl := List.mem_singleton.mp hb
          exact Bool.eq_false_iff.mpr fun hs => hr (List.any_eq_true.mpr ⟨a, ha, hs⟩)

omit [LinearOrder η] in
/-- What is there already is not added. -/
theorem foldl_add_of_mem (hs : ∀ r, R.same r r = true) {v rs : List ρ} (h : ∀ r ∈ rs, r ∈ v) :
    rs.foldl R.add v = v := by
  induction rs with
  | nil => rfl
  | cons r rs ih =>
      rw [List.forall_mem_cons] at h
      rw [List.foldl_cons, add, if_pos (List.any_eq_true.mpr ⟨r, h.1, hs r⟩)]
      exact ih h.2

omit [LinearOrder η] in
/-- Distinct records are all added. -/
theorem foldl_add {v rs : List ρ} (h : (v ++ rs).Pairwise fun a b => R.same b a = false) :
    rs.foldl R.add v = v ++ rs := by
  induction rs generalizing v with
  | nil => exact (List.append_nil v).symm
  | cons r rs ih =>
      have hr : v.any (R.same r) = false := by
        rw [List.any_eq_false]
        intro a ha hs
        rw [List.pairwise_append] at h
        cases hs.symm.trans (h.2.2 a ha r List.mem_cons_self)
      rw [List.append_cons] at h
      rw [List.foldl_cons, add, hr, if_neg Bool.false_ne_true, ih h, ← List.append_cons]

omit [LinearOrder η] in
/-- New records come out of a log that has others as they went in, just when the
others are the first of them and no two are the same. -/
theorem once_append_iff (hs : ∀ r, R.same r r = true) (old rs : List ρ) :
    R.once (old ++ rs) = rs ↔
      R.once old <+: rs ∧ rs.Pairwise fun a b => R.same b a = false := by
  have hfold : R.once (old ++ rs) = rs.foldl R.add (R.once old) := by
    rw [once, List.foldl_append]
    rfl
  constructor
  · intro h
    refine ⟨?_, h ▸ once_distinct _⟩
    have hpre := add_prefix (R := R) (R.once old) rs
    rwa [← hfold, h] at hpre
  · rintro ⟨⟨t, ht⟩, hdist⟩
    rw [hfold]
    rw [← ht] at hdist ⊢
    rw [List.foldl_append, foldl_add_of_mem hs fun r hr => hr, foldl_add hdist]

/-- One record at most comes out as it went in unless none does and the log has
some. -/
theorem replay_stale_of_evicts (he : R.evicts = true) {n : η} {log rs : List ρ}
    (hrs : rs = [] ∨ ∃ r, R.height r = n ∧ rs = [r]) :
    R.replay (R.stale n log ++ rs) = rs ↔ (R.stale n log ≠ [] → rs ≠ []) := by
  have hold : ∀ r ∈ R.stale n log, R.height r = n := fun r => stale_height
  rcases hrs with rfl | ⟨r, hr, rfl⟩
  · rw [List.append_nil, replay_evicts he hold, Option.toList_eq_nil_iff, List.getLast?_eq_none_iff]
    exact ⟨fun h hne => absurd h hne, fun h => by_contra fun hne => h hne rfl⟩
  · have hall : ∀ x ∈ R.stale n log ++ [r], R.height x = n := by
      rw [List.forall_mem_append]
      exact ⟨hold, fun x hx => List.mem_singleton.mp hx ▸ hr⟩
    rw [replay_evicts he hall, List.getLast?_concat]
    exact ⟨fun _ _ => List.cons_ne_nil _ _, fun _ => rfl⟩

theorem replay_stale_of_keeps (he : R.evicts = false) (hs : ∀ r, R.same r r = true) {n : η}
    {log rs : List ρ} (hrs : ∀ r ∈ rs, R.height r = n) :
    R.replay (R.stale n log ++ rs) = rs ↔
      R.once (R.stale n log) <+: rs ∧ rs.Pairwise fun a b => R.same b a = false := by
  have hall : ∀ x ∈ R.stale n log ++ rs, R.height x = n := by
    rw [List.forall_mem_append]
    exact ⟨fun x => stale_height, hrs⟩
  rw [replay_keeps he hall, once_append_iff hs]

/-! ## A journal and its log -/

theorem Faithful.below {log v : List ρ} {n : η} (h : R.Faithful log v n) {x : ρ} (hx : x ∈ v) :
    R.height x < n := by
  rw [← h] at hx
  exact of_decide_eq_true (List.mem_filter.mp hx).2

theorem Faithful.ordered {log v : List ρ} {n : η} (h : R.Faithful log v n) : R.Ordered v := by
  rw [← h]
  exact (replay_ordered log).filter _

/-- What is at or above a height is at the end. -/
theorem rdropWhile_eq {v : List ρ} (h : R.Ordered v) (n : η) :
    (v.rdropWhile fun x => R.height x ≥ n) = v.filter fun x => R.height x < n := by
  rw [rdropWhile_eq_filter]
  · refine List.filter_congr fun x _ => ?_
    rw [← decide_not]
    exact decide_eq_decide.mpr not_le
  · refine h.heights.imp fun hab ha => ?_
    rw [decide_eq_true_eq] at ha ⊢
    exact le_trans ha hab

/-- A log that is replaced by the journal gives it back. -/
theorem Faithful.compact {log v : List ρ} {n : η} (h : R.Faithful log v n) :
    R.Faithful v v n := by
  rw [Faithful, replay_self h.ordered, List.filter_eq_self]
  exact fun x hx => decide_eq_true (h.below hx)

/-- Taking records back leaves the log behind. -/
theorem Faithful.back {log v : List ρ} {n m : η} (h : R.Faithful log v m) (hnm : n ≤ m) :
    R.Faithful log (v.rdropWhile fun x => R.height x ≥ n) n := by
  rw [rdropWhile_eq h.ordered, Faithful, ← h, List.filter_filter]
  refine List.filter_congr fun x _ => ?_
  by_cases hx : R.height x < n
  · rw [decide_eq_true hx, decide_eq_true (lt_of_lt_of_le hx hnm)]
    rfl
  · rw [decide_eq_false hx]
    rfl

/-- New records of the next height, in the journal and behind the log. -/
theorem Faithful.append_iff {log v rs : List ρ} {n m : η} (h : R.Faithful log v n)
    (hnm : ∀ x, x < m ↔ x ≤ n) (hrs : ∀ r ∈ rs, R.height r = n) :
    R.Faithful (log ++ rs) (v ++ rs) m ↔ R.replay (R.stale n log ++ rs) = rs := by
  obtain ⟨hord, hbelow, hat⟩ := foldl_put (replay_ordered log) rs hrs
  have hle : ((R.replay (log ++ rs)).filter fun x => R.height x < m) =
      v ++ R.replay (R.stale n log ++ rs) := by
    simp only [hnm]
    rw [replay_append, filter_le hord, hbelow, hat, replay_at, replay_append, h]
  rw [Faithful, hle]
  exact List.append_right_inj v

end Rule

end Journal
