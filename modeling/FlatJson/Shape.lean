import FlatJson.Catalog.Duration
import FlatJson.Catalog.Period
import FlatJson.Catalog.Year
import FlatJson.Catalog.YearMonth
import FlatJson.Catalog.ZonedDateTime
import FlatJson.Value

/-!
# Shapes

A shape names a type that values can be read as. Every shape has a codec, put
together from those of its parts. A box holds one value, and is read and written
as that value.
-/

namespace FlatJson

/-- A type that values can be read as. -/
inductive Shape
  | bool
  | unit
  | integer (type : IntType)
  | single
  | double
  | string
  | value
  | bigInteger
  | bigDecimal
  | year
  | duration
  | instant
  | offsetDateTime
  | period
  | yearMonth
  | zoneId
  | zonedDateTime
  | option (inner : Shape)
  | list (inner : Shape)
  | boxed (inner : Shape)
  deriving DecidableEq, Repr

namespace Shape

/-- The values of a shape. -/
def Carrier : Shape → Type
  | bool => Bool
  | unit => Unit
  | integer t => t.Member
  | single => Binary32
  | double => Binary64
  | string => String
  | value => Value
  | bigInteger => BigInteger
  | bigDecimal => BigDecimal
  | year => Year
  | duration => Duration
  | instant => Instant
  | offsetDateTime => OffsetDateTime
  | period => Period
  | yearMonth => YearMonth
  | zoneId => ZoneId
  | zonedDateTime => ZonedDateTime
  | option s => Option s.Carrier
  | list s => List s.Carrier
  | boxed s => s.Carrier

/-- How the values of a shape are read and written. -/
def codec : (s : Shape) → Codec s.Carrier
  | bool => Codec.bool
  | unit => Codec.unit
  | integer t => Codec.integer t
  | single => Codec.float .binary32
  | double => Codec.float .binary64
  | string => Codec.string
  | value => Codec.value
  | bigInteger => BigInteger.form.numeral
  | bigDecimal => BigDecimal.form.numeral
  | year => Year.codec
  | duration => Duration.form.quoted
  | instant => Instant.form.quoted
  | offsetDateTime => OffsetDateTime.form.quoted
  | period => Period.form.quoted
  | yearMonth => YearMonth.form.quoted
  | zoneId => ZoneId.form.quoted
  | zonedDateTime => ZonedDateTime.form.quoted
  | option s => s.codec.option
  | list s => s.codec.list
  | boxed s => s.codec

end Shape

end FlatJson
