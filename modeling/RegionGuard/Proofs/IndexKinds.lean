import RegionGuard.Proofs.RegionOrder
set_option autoImplicit false

namespace RegionGuard

inductive RegionChange where
  | length (length : Word)
  | protection (p : Protection)
  | latch (a : Access)
deriving DecidableEq, Repr

namespace RegionChange

def apply (r : Region) : RegionChange → Region
  | length w => { r with length := w }
  | protection p => { r with protection := p }
  | latch a => r.latch a

@[simp] theorem start_apply (c : RegionChange) (r : Region) : (c.apply r).start = r.start := by cases c <;> rfl

end RegionChange

/-- What an index can be asked, and what can happen to the regions that it holds. -/
inductive IndexRequest where
  | insert (r : Region)
  | remove (query : Region) (m : MatchMask)
  | overlapping (query : Region)
  | containing (address : Word)
  | exact (query : Region) (m : MatchMask)
  | nextFrom (query : Region)
  | regions
  | size
  | clear
  | change (start : Word) (c : RegionChange)
deriving DecidableEq, Repr

inductive IndexAnswer where
  | done
  | found (r : Option Region)
  | listed (regions : List Region)
  | counted (n : Nat)
deriving DecidableEq, Repr

/-- Carries out requests one after the other, each on what the one before has left. -/
def IndexRequest.answers {σ : Type} (answer : σ → IndexRequest → Outcome IndexAnswer × σ) (s : σ) :
    List IndexRequest → List (Outcome IndexAnswer)
  | [] => []
  | q :: rest => (answer s q).1 :: answers answer (answer s q).2 rest

def Region.answer (l : List Region) : IndexRequest → Outcome IndexAnswer × List Region
  | .insert r =>
    if l.any (·.start = r.start) then (Failure.raise (.regionOverlap r.start), l) else (pure .done, r.place l)
  | .remove query m =>
    let found := l.find? (·.agrees query m)
    (pure (.found found), l.filter fun s => !found.any (·.start = s.start))
  | .overlapping query =>
    let found := if query.length = 0 then none else
      ((l.filter (·.start < query.stop)).getLast?).filter (query.start < ·.stop)
    (pure (.found found), l)
  | .containing address =>
    (pure (.found (((l.filter (·.start ≤ address)).getLast?).filter (·.containsAddress address))), l)
  | .exact query m => (pure (.found (l.find? (·.agrees query m))), l)
  | .nextFrom query => (pure (.found (l.find? (query.start ≤ ·.start))), l)
  | .regions => (pure (.listed l), l)
  | .size => (pure (.counted l.length), l)
  | .clear => (pure .done, [])
  | .change start c => (pure .done, l.map fun r => if r.start = start then c.apply r else r)

namespace RegionIndex

/-- Carries out a request. One that fails leaves the index as it is. -/
def perform (x : RegionIndex) : IndexRequest → Outcome IndexAnswer × RegionIndex
  | .insert r =>
    match x.insert r with
    | .ok y => (pure .done, y)
    | .error e => (.error e, x)
  | .remove query m =>
    match x.remove? query m with
    | some (r, y) => (pure (.found (some r)), y)
    | none => (pure (.found none), x)
  | .overlapping query => (pure (.found (x.overlapping? query)), x)
  | .containing address => (pure (.found (x.containing? address)), x)
  | .exact query m => (pure (.found (x.find? query m)), x)
  | .nextFrom query => (pure (.found (x.nextFrom? query.start)), x)
  | .regions => (pure (.listed x.toList), x)
  | .size => (pure (.counted x.size), x)
  | .clear => (pure .done, x.clear)
  | .change start c => (pure .done, x.modify start c.apply)

variable {x : RegionIndex}

theorem size_eq (x : RegionIndex) : x.size = x.toList.length := by
  cases x with
  | keyed t => exact (List.length_map _).symm
  | sorted a => rfl

namespace Ordered

theorem perform (h : x.Ordered) (q : IndexRequest) :
    (x.perform q).1 = (Region.answer x.toList q).1 ∧ (x.perform q).2.toList = (Region.answer x.toList q).2 ∧
      (x.perform q).2.Ordered := by
  unfold RegionIndex.perform Region.answer
  cases q with
  | insert r =>
    simp only
    rcases h.places r with ⟨⟨s, hs, hstart⟩, hfails⟩ | ⟨fresh, y, hok, hordered, hlist⟩
    · have hany : x.toList.any (·.start = r.start) := List.any_eq_true.mpr ⟨s, hs, decide_eq_true hstart⟩
      rw [hfails, if_pos hany]
      exact ⟨rfl, rfl, h⟩
    · have hnone : ¬ x.toList.any (·.start = r.start) := by simpa using fresh
      rw [hok, if_neg hnone]
      exact ⟨rfl, hlist, hordered⟩
  | remove query m =>
    simp only
    rw [← h.find?_eq]
    rcases h.remove?_cases query m with ⟨hnone, hremove⟩ | ⟨r, y, hfound, hremove, hordered, hlist⟩
    · rw [hnone, hremove]
      exact ⟨rfl, (List.filter_eq_self.mpr fun _ _ => rfl).symm, h⟩
    · rw [hfound, hremove]
      refine ⟨rfl, hlist.trans (List.filter_congr fun s _ => ?_), hordered⟩
      simp [eq_comm]
  | overlapping query => exact ⟨congrArg (fun r => pure (IndexAnswer.found r)) (h.overlapping?_eq _), rfl, h⟩
  | containing address => exact ⟨congrArg (fun r => pure (IndexAnswer.found r)) (h.containing?_eq _), rfl, h⟩
  | exact query m => exact ⟨congrArg (fun r => pure (IndexAnswer.found r)) (h.find?_eq _ _), rfl, h⟩
  | nextFrom query => exact ⟨congrArg (fun r => pure (IndexAnswer.found r)) (h.nextFrom?_eq _), rfl, h⟩
  | regions => exact ⟨rfl, rfl, h⟩
  | size => exact ⟨congrArg (fun n => pure (IndexAnswer.counted n)) x.size_eq, rfl, h⟩
  | clear => exact ⟨rfl, toList_clear x, ordered_clear x⟩
  | change start c =>
    obtain ⟨hordered, hlist⟩ := h.modify_eq (w := start) (f := c.apply) fun r _ hr => (c.start_apply r).trans hr
    exact ⟨rfl, hlist, hordered⟩

theorem answers_eq (h : x.Ordered) (requests : List IndexRequest) :
    IndexRequest.answers RegionIndex.perform x requests = IndexRequest.answers Region.answer x.toList requests := by
  induction requests generalizing x with
  | nil => rfl
  | cons q rest ih =>
    obtain ⟨hanswer, hlist, hordered⟩ := h.perform q
    unfold IndexRequest.answers
    rw [hanswer, ih hordered, hlist]

end Ordered

/-- An empty index of either kind answers any sequence of requests like an empty list that is kept in order, and so
like an empty index of the other kind. -/
theorem kinds_answer_alike (requests : List IndexRequest) :
    (∀ kind, IndexRequest.answers perform (empty kind) requests = IndexRequest.answers Region.answer [] requests) ∧
      IndexRequest.answers perform (empty .keyed) requests = IndexRequest.answers perform (empty .sorted) requests := by
  have inOrder : ∀ kind, IndexRequest.answers perform (empty kind) requests =
      IndexRequest.answers Region.answer [] requests := fun kind => by
    rw [(ordered_empty kind).answers_eq, toList_empty]
  exact ⟨inOrder, (inOrder .keyed).trans (inOrder .sorted).symm⟩

end RegionIndex

end RegionGuard
