import TokenShell.Text.Bytes

/-! Points in time and spans of time as text. -/
namespace TokenShell.Clock

/-- Month and day in the Gregorian calendar of a day counted from 1 January 1970. Years start in
March here, so that the leap day comes last: 400 years have 146097 days. -/
def monthDay (days : Int) : Nat × Nat :=
  let d := ((days + 719468) % 146097).toNat
  let year := (d - d / 1460 + d / 36524 - d / 146096) / 365
  let dayOfYear := d - (365 * year + year / 4 - year / 100)
  let m := (5 * dayOfYear + 2) / 153
  (if m < 10 then m + 3 else m - 9, dayOfYear - (153 * m + 2) / 5 + 1)

def millisPerDay : Nat := 86400000

/-- Month, day and time of day of a point in time, given in milliseconds since 1970, UTC. -/
def stamp (millis : Int) : Bytes :=
  let (month, day) := monthDay (millis.fdiv millisPerDay)
  let t := (millis.fmod millisPerDay).toNat
  let two := Bytes.zeroFilled 2
  two month ++ 0x2d :: two day ++ 0x7c :: two (t / 3600000) ++ 0x3a :: two (t / 60000 % 60) ++
    0x3a :: two (t / 1000 % 60) ++ 0x2e :: Bytes.zeroFilled 3 (t % 1000)

/-- A number of units given in parts of `10 ^ places`, without needless zeros. -/
def fractional (places n : Nat) : Bytes :=
  let unit := Nat.pow 10 places
  let whole := Bytes.decimal (n / unit)
  let part := Bytes.trimRight (· == 0x30) (Bytes.zeroFilled places (n % unit))
  if n % unit = 0 then whole else whole ++ 0x2e :: part

/-- Hours, minutes and seconds of at least one second, without leading zero units. -/
def clockwork (nanos : Nat) : Bytes :=
  let minutes := nanos / 60000000000
  let seconds := fractional 9 (nanos % 60000000000) ++ ("s" : Bytes)
  if minutes = 0 then seconds
  else
    let rest := Bytes.decimal (minutes % 60) ++ ("m" : Bytes) ++ seconds
    if minutes / 60 = 0 then rest else Bytes.decimal (minutes / 60) ++ ("h" : Bytes) ++ rest

def unsignedSpan (nanos : Nat) : Bytes :=
  if nanos = 0 then "0s"
  else if nanos < 1000 then Bytes.decimal nanos ++ ("ns" : Bytes)
  else if nanos < 1000000 then fractional 3 nanos ++ ("µs" : Bytes)
  else if nanos < 1000000000 then fractional 6 nanos ++ ("ms" : Bytes)
  else clockwork nanos

/-- A span of time given in nanoseconds. -/
def span (nanos : Int) : Bytes :=
  if nanos < 0 then 0x2d :: unsignedSpan nanos.natAbs else unsignedSpan nanos.natAbs

end TokenShell.Clock
