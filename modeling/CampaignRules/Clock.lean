import CampaignRules.Bytes

/-! # Moments

A moment is a number of milliseconds since the start of 1970 in universal time. The calendar counts
days in cycles of 400 years that begin on the first of March, so that the leap day, if there is
one, ends a year. -/

namespace CampaignRules

/-- Milliseconds since the start of 1970. -/
structure Moment where
  milliseconds : Int

namespace Moment

/-- Whole seconds, cut off towards the start of 1970 as the milliseconds are. -/
def seconds (t : Moment) : Int :=
  t.milliseconds.tdiv 1000

def millisecond (t : Moment) : Int :=
  t.milliseconds.tmod 1000

def day (t : Moment) : Int :=
  t.seconds / 86400

def secondOfDay (t : Moment) : Nat :=
  (t.seconds % 86400).toNat

/-- A day of the calendar; months and days count from one. -/
structure Date where
  year : Int
  month : Nat
  day : Nat

/-- The date of a day counted from the start of 1970. -/
def Date.ofDay (day : Int) : Date :=
  let shifted := day + 719468
  let cycle := shifted / 146097
  let dayOfCycle := (shifted % 146097).toNat
  let yearOfCycle := (dayOfCycle - dayOfCycle / 1460 + dayOfCycle / 36524 - dayOfCycle / 146096) / 365
  let dayOfYear := dayOfCycle - (365 * yearOfCycle + yearOfCycle / 4 - yearOfCycle / 100)
  let fromMarch := (5 * dayOfYear + 2) / 153
  let month := if fromMarch < 10 then fromMarch + 3 else fromMarch - 9
  { year := cycle * 400 + yearOfCycle + if month ≤ 2 then 1 else 0
    month
    day := dayOfYear - (153 * fromMarch + 2) / 5 + 1 }

def pair (n : Nat) : Bytes :=
  Bytes.paddedDecimal 2 n

/-- Three columns, of which a sign takes one. -/
def millisecondText (t : Moment) : Bytes :=
  if t.millisecond < 0 then "-" ++ Bytes.paddedDecimal 2 t.millisecond.natAbs
  else Bytes.paddedDecimal 3 t.millisecond.natAbs

/-- Hours, minutes and seconds. -/
def timeText (t : Moment) : Bytes :=
  let s := t.secondOfDay
  pair (s / 3600) ++ ":" ++ pair (s / 60 % 60) ++ ":" ++ pair (s % 60)

/-- Date and time to the millisecond, marked as universal time. -/
def timestamp (t : Moment) : Bytes :=
  let date := Date.ofDay t.day
  Bytes.signedDecimal date.year ++ "-" ++ pair date.month ++ "-" ++ pair date.day ++ "T" ++
    t.timeText ++ "." ++ t.millisecondText ++ "Z"

end Moment

end CampaignRules
