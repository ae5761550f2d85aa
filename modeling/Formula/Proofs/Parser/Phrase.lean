import Formula.Proofs.Parser.Derivation

namespace Formula

open Formula.Parser Formula.Grammar

/-- What a phrase between two cursors contributes to a reading. Summands and factors are the
beginning of a chain, and a product may still become a dividend. -/
def Grammar.Phrase.IsRead : Phrase → Cursor → Cursor → Prop
  | .summands es, start, stop => Ends productMarks stop →
    ∀ e final, Reads (.sumRest es e) stop final → Reads (.sum e) start final
  | .sum e, start, stop => Ends sumMarks stop → Reads (.sum e) start stop
  | .factors es, start, stop => Ends powerMarks stop →
    ∀ e final, Reads (.productRest es e) stop final → Reads (.product e) start final
  | .product e, start, stop => ∃ es, productOf es = e ∧ (Ends powerMarks stop →
    ∀ e' final, Reads (.productRest es e') stop final → Reads (.product e') start final)
  | .unary e, start, stop => Ends powerMarks stop → Reads (.unary e) start stop
  | .power e, start, stop => Ends powerMarks stop → Reads (.power e) start stop
  | .primary e, start, stop => Ends [] stop → Reads (.primary e) start stop
  | .arguments es, start, stop => ∀ next, stop.takeKind? .rparen = some next →
    ∃ first others middle, es = first :: others ∧ Reads (.sum first) start middle ∧
      Reads (.argumentsRest others) middle stop

namespace Parser

variable {start stop : Cursor} {e : Expr} {es : List Expr}

theorem takeKind?_of_take? {cursor next : Cursor} {token : Token} {kind : TokenKind}
    (htake : cursor.take? = some (token, next)) (hkind : token.kind = kind) :
    cursor.takeKind? kind = some next :=
  Cursor.takeKind?_eq_some_iff.mpr ⟨token, htake, hkind⟩

/-- A cursor before a token of one kind is before no token of another one. -/
theorem takeKind?_eq_none {cursor next : Cursor} {kind other : TokenKind}
    (h : cursor.takeKind? kind = some next) (hne : kind ≠ other) :
    cursor.takeKind? other = none := by
  obtain ⟨token, htake, rfl⟩ := Cursor.takeKind?_eq_some_iff.mp h
  refine Cursor.takeKind?_eq_none_iff.mpr fun token' next' htake' => ?_
  cases htake.symm.trans htake'
  exact hne

theorem sumOf_of_two_le (h : 2 ≤ es.length) : sumOf es = .operation .add es := by
  match es, h with
  | first :: second :: rest, _ => rfl

theorem productOf_of_two_le (h : 2 ≤ es.length) : productOf es = .operation .multiply es := by
  match es, h with
  | first :: second :: rest, _ => rfl

/-- A sign that touches its operand where it has to passes the check. -/
theorem checkSign_of_touches {start next stop : Cursor} {sign : Token} {w : List Token}
    (htake : start.take? = some (sign, next)) (hw : Spans next w stop)
    (htouches : start.behindOperator = true → ∃ first, w.head? = some first ∧ Touches sign first) :
    checkSign sign start = .ok () := by
  refine checkSign_eq_ok_iff.mpr fun hstart => ?_
  obtain ⟨first, hhead, htouch⟩ := htouches hstart
  obtain ⟨rest, rfl⟩ := List.head?_eq_some_iff.mp hhead
  rw [Cursor.following_of_take? htake, hw.current]
  exact htouch

/-- A chain of summands is a sum where no operator goes on with it. -/
theorem reads_sum_of_summands (h : (Phrase.summands es).IsRead start stop)
    (hends : Ends sumMarks stop) : Reads (.sum (sumOf es)) start stop := by
  refine h (hends.mono (by simp [productMarks, sumMarks])) _ _ (.sumEnd fun token next htake => ?_)
  have hnot := hends.next token next htake
  simp only [sumMarks, List.mem_cons, not_or] at hnot
  exact ⟨hnot.2.2.2.2.1, hnot.2.2.2.2.2.1⟩

theorem reads_product_of_product (h : (Phrase.product e).IsRead start stop)
    (hends : Ends productMarks stop) : Reads (.product e) start stop := by
  obtain ⟨es, rfl, hread⟩ := h
  refine hread (hends.mono (by simp [powerMarks, productMarks])) _ _
    (.productEnd fun token next htake => ?_)
  have hnot := hends.next token next htake
  simp only [productMarks, List.mem_cons, not_or] at hnot
  exact ⟨hnot.2.1, hnot.2.2.1, hnot.2.2.2.1⟩

theorem isRead_summand {middle next : Cursor} {token : Token}
    (hfirst : (Phrase.summands es).IsRead start middle)
    (htake : middle.take? = some (token, next)) (hkind : token.kind = .plus ∨ token.kind = .minus)
    (hlast : (Phrase.product e).IsRead next stop) :
    (Phrase.summands (es ++ [summand token.kind e])).IsRead start stop := by
  intro hends total final hrest
  have hmiddle : Ends productMarks middle := by
    refine .of_take? htake ?_ ?_ ?_ ?_ <;> rcases hkind with hkind | hkind <;> rw [hkind] <;> decide
  exact hfirst hmiddle _ _ (.summand htake hkind (reads_product_of_product hlast hends) hrest)

theorem isRead_factor {middle next : Cursor} {token : Token}
    (hfirst : (Phrase.factors es).IsRead start middle)
    (htake : middle.take? = some (token, next))
    (hkind : token.kind = .multiply ∨ token.kind = .divide ∨ token.kind = .modulo)
    (hlast : (Phrase.unary e).IsRead next stop) :
    (Phrase.factors (withFactor es token.kind e)).IsRead start stop := by
  intro hends total final hrest
  have hmiddle : Ends powerMarks middle := by
    refine .of_take? htake ?_ ?_ ?_ ?_ <;> rcases hkind with hkind | hkind | hkind <;>
      rw [hkind] <;> decide
  exact hfirst hmiddle _ _ (.factor htake hkind (hlast hends) hrest)

theorem isRead_sign {next : Cursor} {token : Token} {w : List Token}
    (htake : start.take? = some (token, next)) (hkind : token.kind = .minus ∨ token.kind = .plus)
    (hw : Spans next w stop)
    (htouches : start.behindOperator = true → ∃ first, w.head? = some first ∧ Touches token first)
    (hoperand : (Phrase.unary e).IsRead next stop) :
    (Phrase.unary (summand token.kind e)).IsRead start stop :=
  fun hends => .sign htake hkind (checkSign_of_touches htake hw htouches) (hoperand hends)

/-- Every phrase is read. A sign or an operator that begins the next operand ends the one before. -/
theorem isRead_of_derives {b : Bool} {w : List Token} {phrase : Phrase}
    (h : Derives b w phrase) (hw : Spans start w stop) (hbehind : start.behindOperator = b) :
    phrase.IsRead start stop := by
  induction h generalizing start stop with
  | summand _ ih =>
    intro hends e final hrest
    exact .sum (reads_product_of_product (ih hw hbehind) hends) hrest
  | plus _ hkind _ ihFirst ihLast =>
    obtain ⟨middle, next, hfirst, htake, hlast, hnext⟩ := hw.exists_around
    have hread := isRead_summand (ihFirst hfirst hbehind) htake (.inl hkind)
      (ihLast hlast (by rw [hnext, hkind]; rfl))
    rwa [hkind] at hread
  | minus _ hkind _ ihFirst ihLast =>
    obtain ⟨middle, next, hfirst, htake, hlast, hnext⟩ := hw.exists_around
    have hread := isRead_summand (ihFirst hfirst hbehind) htake (.inr hkind)
      (ihLast hlast (by rw [hnext, hkind]; rfl))
    rwa [hkind] at hread
  | onlySummand _ ih => exact reads_sum_of_summands (ih hw hbehind)
  | @sum b w es _ hlength ih =>
    have hread := reads_sum_of_summands (ih hw hbehind)
    rwa [sumOf_of_two_le hlength] at hread
  | factor _ ih => exact fun hends e final hrest => .product (ih hw hbehind hends) hrest
  | times _ hkind _ ihFirst ihLast =>
    obtain ⟨middle, next, hfirst, htake, hlast, hnext⟩ := hw.exists_around
    have hread := isRead_factor (ihFirst hfirst hbehind) htake (.inl hkind)
      (ihLast hlast (by rw [hnext, hkind]; rfl))
    rwa [hkind] at hread
  | divide _ hkind _ ihFirst ihLast =>
    obtain ⟨middle, next, hfirst, htake, hlast, hnext⟩ := hw.exists_around
    have hread := isRead_factor (ihFirst hfirst hbehind) htake (.inr (.inl hkind))
      (ihLast hlast (by rw [hnext, hkind]; rfl))
    rwa [hkind] at hread
  | modulo _ hkind _ ihFirst ihLast =>
    obtain ⟨middle, next, hfirst, htake, hlast, hnext⟩ := hw.exists_around
    obtain ⟨es, rfl, hdividend⟩ := ihFirst hfirst hbehind
    have hread := isRead_factor hdividend htake (.inr (.inr hkind))
      (ihLast hlast (by rw [hnext, hkind]; rfl))
    rwa [hkind] at hread
  | @onlyFactor b w e _ ih => exact ⟨[e], rfl, ih hw hbehind⟩
  | @product b w es _ hlength ih => exact ⟨es, productOf_of_two_le hlength, ih hw hbehind⟩
  | negative hkind htouches _ ih =>
    obtain ⟨next, htake, hoperand⟩ := hw.exists_next
    have hnext := Cursor.behindOperator_of_take? htake
    have hread := isRead_sign htake (.inl hkind) hoperand (hbehind ▸ htouches)
      (ih hoperand (by rw [hnext, hkind]; rfl))
    rwa [hkind] at hread
  | positive hkind htouches _ ih =>
    obtain ⟨next, htake, hoperand⟩ := hw.exists_next
    have hnext := Cursor.behindOperator_of_take? htake
    have hread := isRead_sign htake (.inr hkind) hoperand (hbehind ▸ htouches)
      (ih hoperand (by rw [hnext, hkind]; rfl))
    rwa [hkind] at hread
  | unsigned hpower ih =>
    intro hends
    obtain ⟨token, rest, rfl, hkind⟩ := hpower.power_starts
    obtain ⟨next, htake, -⟩ := hw.exists_next
    refine .unsigned (fun other next' hother => ?_) (ih hw hbehind hends)
    cases htake.symm.trans hother
    exact hkind
  | power _ hkind _ ihBase ihExponent =>
    intro hends
    obtain ⟨middle, next, hfirst, htake, hlast, hnext⟩ := hw.exists_around
    have htakeKind := takeKind?_of_take? htake hkind
    exact .raised (ihBase hfirst hbehind (.of_takeKind? htakeKind (by simp) (by decide))) htakeKind
      (ihExponent hlast (by rw [hnext, hkind]; rfl) hends)
  | base _ ih =>
    intro hends
    refine .unraised (ih hw hbehind (hends.mono (by simp))) ?_
    refine Cursor.takeKind?_eq_none_iff.mpr fun token next htake hkind => ?_
    exact hends.next token next htake (by simp [powerMarks, hkind])
  | @number b token x hkind hx =>
    intro hends
    have htake := hw.take?_of_single
    exact .number htake hkind
      (hends.numeral token (Cursor.take?_eq_some_iff.mp htake).2.1 hkind) hx
  | @reference b token hkind =>
    intro hends
    have htake := hw.take?_of_single
    exact .reference htake hkind (hends.word token (Cursor.take?_eq_some_iff.mp htake).2.1 hkind)
  | parenthesis hopen _ hclose ih =>
    intro _
    obtain ⟨inside, htake, hrest⟩ := hw.exists_next
    obtain ⟨behind, hsum, hlast⟩ := hrest.exists_middle
    have hinside := Cursor.behindOperator_of_take? htake
    have hstop := takeKind?_of_take? hlast.take?_of_single hclose
    exact .parenthesis htake hopen (ih hsum (by rw [hinside, hopen]; rfl)
      (.of_takeKind? hstop (by decide) (by decide))) hstop
  | call hname hopen harguments hclose ih =>
    intro _
    obtain ⟨next, htake, hrest⟩ := hw.exists_next
    obtain ⟨inside, hopening, hrest⟩ := hrest.exists_next
    obtain ⟨behind, hinner, hlast⟩ := hrest.exists_middle
    have hinside := Cursor.behindOperator_of_take? hopening
    have hstop := takeKind?_of_take? hlast.take?_of_single hclose
    obtain ⟨first, others, middle, rfl, hfirst, hothers⟩ :=
      ih hinner (by rw [hinside, hopen]; rfl) _ hstop
    obtain ⟨token, rest, rfl, hkind⟩ := harguments.starts
    have hcurrent : inside.current.kind ≠ .rparen := by
      rw [hinner.current]
      intro hparen
      rw [hparen] at hkind
      cases hkind
    exact .call htake hname (takeKind?_of_take? hopening hopen)
      (.arguments hcurrent hfirst hothers) hstop
  | emptyCall hname hopen hclose =>
    intro _
    obtain ⟨next, htake, hrest⟩ := hw.exists_next
    obtain ⟨inside, hopening, hlast⟩ := hrest.exists_next
    have hcurrent := hlast.current
    exact .call htake hname (takeKind?_of_take? hopening hopen)
      (.noArguments (by rw [hcurrent, hclose])) (takeKind?_of_take? hlast.take?_of_single hclose)
  | argument _ ih =>
    intro next hnext
    refine ⟨_, [], stop, rfl, ih hw hbehind (.of_takeKind? hnext (by decide) (by decide)), ?_⟩
    exact .argumentsEnd (takeKind?_eq_none hnext (by decide))
  | arguments _ hkind _ ihFirst ihRest =>
    intro next hnext
    obtain ⟨middle, behind, hfirst, htake, hlast, hbehind'⟩ := hw.exists_around
    have hcomma := takeKind?_of_take? htake hkind
    obtain ⟨second, others, end_, rfl, hsecond, hothers⟩ :=
      ihRest hlast (by rw [hbehind', hkind]; rfl) _ hnext
    refine ⟨_, _, middle, rfl,
      ihFirst hfirst hbehind (.of_takeKind? hcomma (by decide) (by decide)), ?_⟩
    exact .argument hcomma hsecond hothers

end Parser

end Formula
